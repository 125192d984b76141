import MiniOs.Proc.Exec

/-!
# What a new program finds

When `process_exec` jumps to user mode, user memory off the top page is what the caller had there
with the loader's writes over it.  The top page is new, and has at its end the vector and the bytes
that `build_stack` has copied for it.

So a byte of the caller that the loader does not write over is there for the new program to read, and
the page that the caller had at the top is neither mapped nor free.  The strings are those that the
caller passed where `build_stack` found them unchanged.
-/

namespace MiniOs

open Memory Radix MemProg

namespace Exec

open Stack Elf

variable {Away : Word → Prop}

section Jump

variable {lo hi : Nat} {hlo : 0 < lo} {hhi : hi ≤ 2 ^ 44} {m m' : Memory} {cs cs' : List Ptr}
  {free free' : Finset Nat} {isProc : Bool} {file : File} {argc : BitVec 32} {argv : Word}
  {sepc sp a0 a1 : Word} {blocks : List (List UInt8)}
  {va : Word} {k stksz : Nat} {v v' : ByteMem} {strs : List (List UInt8)}

/-- User memory when the new program starts, with a stack of `stksz` bytes. -/
structure Image (lo hi : Nat) (hlo : 0 < lo) (hhi : hi ≤ 2 ^ 44) (m : Memory) (free : Finset Nat)
    (file : File) (argc stksz : Nat) (blocks : List (List UInt8)) (m' : Memory) (free' : Finset Nat) :
    Prop where
  pages : ∃ cs', UserPages lo hi hlo hhi m' cs' free'
  root : activeRoot m' = activeRoot m
  subset : free' ⊆ free
  keep : ∀ {va x}, ¬ OnTop va → translate m (activeRoot m) va = some x →
    translate m' (activeRoot m) va = some x
  taken : ∀ {va x}, IsUser va → translate m' (activeRoot m) va = some x →
    OnTop va ∨ translate m (activeRoot m) va = none → x.ppn.toNat ∈ free
  off : ∀ {va}, IsUser va → ¬ OnTop va →
    userView m' va = MemWrite.applyAll (elfLoad file).writes (userView m) va
  writes : ∀ w ∈ (elfLoad file).writes, UserWrite w
  count : blocks.length = argc
  few : argc < pageSize / 8
  fits : 8 * (argc + 1) + blocks.flatten.length ≤ stksz
  page : stksz ≤ pageSize
  layout : Layout (userView m') stackTop stksz argc blocks
  rest : ∀ {va}, OnTop va → umemEnd - stksz + 8 * (argc + 1) + blocks.flatten.length ≤ va.toNat →
    userView m' va = MemWrite.applyAll (elfLoad file).writes (fun _ => 0) va

theorem onTop_iff : OnTop va ↔ umemEnd - pageSize ≤ va.toNat ∧ va.toNat < umemEnd := by
  have htop : stackTop.toNat = umemEnd - pageSize := rfl
  rw [OnTop, htop]
  simp only [umemEnd, pageSize]
  omega

theorem OnTop.isUser (h : OnTop va) : IsUser va := isUser_stackTop.samePage h

/-- The addresses of the page. -/
theorem onTop_add (h : k < pageSize) : OnTop (stackTop + BitVec.ofNat 64 k) := by
  have htop : stackTop.toNat = umemEnd - pageSize := rfl
  have hadd : (stackTop + BitVec.ofNat 64 k).toNat = stackTop.toNat + k := by
    refine toNat_add_ofNat ?_
    rw [htop]
    simp only [umemEnd, pageSize] at h ⊢
    omega
  rw [onTop_iff, hadd, htop]
  simp only [umemEnd, pageSize] at h ⊢
  omega

/-- What is held inside the page is so in any view of it. -/
theorem holds_top {bs : List UInt8}
    (h : v.Holds (stackTop + BitVec.ofNat 64 k) bs) (hend : k + bs.length ≤ pageSize)
    (hsame : ∀ a, OnTop a → v' a = v a) : v'.Holds (stackTop + BitVec.ofNat 64 k) bs := by
  refine h.congr fun i hi => hsame _ ?_
  rw [BitVec.add_assoc, ← BitVec.ofNat_add]
  exact onTop_add (by omega)

/-- The layout of the page in any view of it. -/
theorem layout_top {n : Nat} (h : Layout v stackTop stksz n blocks)
    (hcount : blocks.length = n) (hfits : 8 * (n + 1) + blocks.flatten.length ≤ stksz)
    (hpage : stksz ≤ pageSize) (hsame : ∀ a, OnTop a → v' a = v a) :
    Layout v' stackTop stksz n blocks := by
  refine ⟨holds_top h.null (by rw [length_leBytes]; omega) hsame, fun j b hb => ?_, fun j b hb => ?_⟩
  · have hj := (List.getElem?_eq_some_iff.mp hb).1
    exact holds_top (h.pointer j b hb) (by rw [length_leBytes]; omega) hsame
  · have hle := length_take_add_le hb (show j < j + 1 from Nat.lt_succ_self j)
    have hpart : (blocks.take (j + 1)).flatten.length ≤ blocks.flatten.length :=
      (List.Sublist.flatten (List.take_sublist (j + 1) blocks)).length_le
    refine holds_top (h.block j b hb) ?_ hsame
    rw [blockOffset]
    omega

/-- A call that gets to user mode. -/
theorem image (h : UserPages lo hi hlo hhi m cs free)
    (hexec : processExec isProc (some file) argc argv m = some (.jump sepc sp a0 a1 blocks, m')) :
    ∃ stksz free', Image lo hi hlo hhi m free file argc.toNat stksz blocks m' free' ∧
      a0 = argc.signExtend 64 ∧ a1 = BitVec.ofNat 64 (umemEnd - stksz) ∧ sp = a1 ∧
      ∃ m2 cs2 free2, UserPages lo hi hlo hhi m2 cs2 free2 ∧
        (∀ va, IsUser va → ¬ OnTop va →
          userView m2 va = MemWrite.applyAll (elfLoad file).writes (userView m) va) ∧
        paged.run (buildStack stackTop argc argv) m2 = some (((stksz : Int), blocks), m') := by
  cases isProc with
  | false => cases hexec
  | true =>
  have hrwx : Rwx stackFlags := by decide
  obtain ⟨done, m1, cs1, free1, hmap, hp⟩ := mapZeroPage_placed h.tree hrwx isUser_stackTop.ne_zero
  simp only [processExec, Bool.true_eq_false, if_false, hmap, Option.bind_some] at hexec
  cases done with
  | false => cases hexec
  | true =>
  rw [if_neg (by decide)] at hexec
  obtain ⟨⟨⟨⟩, m2⟩, hload, hexec⟩ := Option.bind_eq_some_iff.mp hexec
  have hgive : ∀ {rc m3}, giveUp rc m3 ≠ some (.jump sepc sp a0 a1 blocks, m') := by
    intro rc m3 heq
    obtain ⟨m4, -, hpair⟩ := Option.map_eq_some_iff.mp heq
    cases hpair
  by_cases hrc : (elfLoad file).rc = 0
  case neg =>
    rw [if_pos hrc] at hexec
    exact absurd hexec hgive
  rw [if_neg (not_not.mpr hrc)] at hexec
  obtain ⟨⟨⟨value, blocks'⟩, m3⟩, hbuild, hexec⟩ := Option.bind_eq_some_iff.mp hexec
  dsimp only at hexec
  by_cases hneg : value < 0
  case pos =>
    rw [if_pos hneg] at hexec
    exact absurd hexec hgive
  rw [if_neg hneg] at hexec
  cases hexec
  obtain ⟨hpages1, hview1⟩ := h.placed isUser_stackTop (by decide) hp
  obtain ⟨n, hmem, hn, -, -, -, hset⟩ := hp.placed rfl
  obtain ⟨hall, cs2, free2, hwritten⟩ := loaded hpages1 hload
  obtain ⟨⟨cs', free', hbuilt⟩, hcase⟩ := built hwritten.pages hbuild
  rcases hcase with ⟨rfl, -⟩ | ⟨stksz, rfl, hfits, hpage, hfew, hcount, hstores⟩
  · exact absurd (by decide) hneg
  have hroot1 : activeRoot m1 = activeRoot m := activeRoot_congr hp.within.satp
  have htouched := hwritten.trans hbuilt
  have hkeep := @htouched.keep
  have htaken := @htouched.taken
  rw [hroot1] at hkeep htaken
  have hspace : stackTop.toNat + pageSize < 2 ^ 64 := by decide
  have hlayout := fun v : ByteMem => layout_of_stores (m := v) hspace hpage hcount hfits hstores
  have hend : stackTop.toNat + pageSize = umemEnd := rfl
  -- the bytes of user memory that the loader has left
  have hloaded : ∀ {va}, IsUser va → userView m2 va =
      MemWrite.applyAll (elfLoad file).writes (userView m1) va := by
    intro va hva
    rw [hwritten.view hva, Access.replay_writes fun w hw => (hall w hw).size_le]
  have hsp : umemEndVma - BitVec.ofInt 64 stksz = BitVec.ofNat 64 (umemEnd - stksz) := by
    refine BitVec.eq_of_toNat_eq ?_
    have hint : (BitVec.ofInt 64 (stksz : Int)).toNat = stksz := by
      rw [BitVec.ofInt_natCast, BitVec.toNat_ofNat]
      simp only [pageSize] at hpage
      omega
    rw [BitVec.toNat_sub, hint, BitVec.toNat_ofNat, BitVec.toNat_ofNat]
    simp only [pageSize, umemEnd] at hpage ⊢
    omega
  refine ⟨stksz, free', ⟨⟨cs', htouched.pages⟩, htouched.root.trans hroot1,
    htouched.subset.trans hp.subset, fun {va x} hon hx => ?_, fun {va x} hva hx hcase => ?_,
    fun {va} hva hon => ?_, hall, hcount, hfew, hfits, hpage, ?_, fun {va} hon hle => ?_⟩,
    rfl, hsp, rfl, m2, cs2, free2, hwritten.pages, fun va hva hon => ?_, hbuild⟩
  · refine hkeep ?_
    rw [hset, if_neg fun hand => hon hand.2, hx]
  · by_cases hon : OnTop va
    · have hx1 : translate m1 (activeRoot m) va = some ⟨0, n, leafFlags stackFlags⟩ := by
        rw [hset, if_pos ⟨hva.wellformed, hon⟩]
      obtain rfl := Option.some.inj ((hkeep hx1).symm.trans hx)
      exact hmem
    · refine hp.subset (htaken hva ?_ hx)
      rw [hset, if_neg fun hand => hon hand.2]
      exact hcase.resolve_left hon
  · have hout : va.toNat < stackTop.toNat + pageSize - stksz ∨
        stackTop.toNat + pageSize - stksz + 8 * (argc.toNat + 1) + blocks.flatten.length ≤ va.toNat := by
      rw [onTop_iff] at hon
      have hlt := hva.2
      omega
    rw [hbuilt.view hva, (hlayout (userView m2)).2 va hout, hloaded hva]
    exact MemWrite.applyAll_congr ((hview1 va hva).trans (if_neg hon))
  · exact layout_top (hlayout (userView m2)).1 hcount hfits hpage fun a ha => hbuilt.view ha.isUser
  · rw [← hend] at hle
    rw [hbuilt.view hon.isUser, (hlayout (userView m2)).2 va (.inr hle), hloaded hon.isUser]
    exact MemWrite.applyAll_congr ((hview1 va hon.isUser).trans (if_pos hon))
  · rw [hloaded hva]
    exact MemWrite.applyAll_congr ((hview1 va hva).trans (if_neg hon))

/-! ## What is left of the caller -/

/-- The address is in a segment that was loaded. -/
def InSegment (file : File) (va : Word) : Prop := ∃ ph ∈ reached file, ph.Has va

/-- The loader writes to segments. -/
theorem inSegment_of_covers {w : MemWrite} (hall : ∀ w ∈ (elfLoad file).writes, UserWrite w)
    (hw : w ∈ (elfLoad file).writes) (hcov : w.Covers va) : InSegment file va := by
  rw [elfLoad_writes] at hw hall
  obtain ⟨ph, hph, hw⟩ := List.mem_flatMap.mp hw
  refine ⟨ph, hph, ?_⟩
  have hall : ∀ w ∈ (loadSegment file ph).2, UserWrite w := fun w hw =>
    hall w (List.mem_flatMap.mpr ⟨ph, hph, hw⟩)
  by_cases hch : ph.Checked
  case neg =>
    rw [loadSegment, if_neg hch] at hw
    cases hw
  -- a write to user memory does not wrap around
  have hin : ∀ {w : MemWrite}, UserWrite w → w.Covers va →
      w.start.toNat ≤ va.toNat ∧ va.toNat < w.start.toNat + w.size := by
    intro w huser hcov
    rcases huser with hzero | ⟨-, hend⟩
    · exact absurd hcov (MemWrite.not_covers_of_size hzero va)
    · refine (MemWrite.covers_iff ?_).mp hcov
      simp only [umemEnd] at hend
      omega
  obtain ⟨-, -, hsize⟩ := hch.bounds
  have hbounds := hin (hall w hw) hcov
  by_cases hneg : 2 ^ 63 ≤ ph.filesz.toNat
  · rw [loadSegment_neg hch hneg, List.mem_singleton] at hw
    subst hw
    exact absurd hcov (MemWrite.not_covers_of_size rfl va)
  have hlt : ph.filesz.toNat < 2 ^ 63 := by omega
  rcases Nat.lt_or_ge (ph.got file) ph.filesz.toNat with hshort | hge
  · rw [loadSegment_short hch hlt hshort, List.mem_singleton] at hw
    subst hw
    change ph.vaddr.toNat ≤ _ ∧ _ < ph.vaddr.toNat + ph.got file at hbounds
    exact ⟨hbounds.1, by omega⟩
  have hgot : ph.got file = ph.filesz.toNat := Nat.le_antisymm (ioreadat_length_le _ _ _) hge
  rw [loadSegment_full hch hlt hgot] at hw hall
  rcases List.mem_append.mp hw with hw | hw
  · split at hw
    case isFalse => cases hw
    case isTrue =>
      obtain rfl := List.mem_singleton.mp hw
      change ph.vaddr.toNat ≤ _ ∧ _ < ph.vaddr.toNat + ph.got file at hbounds
      exact ⟨hbounds.1, by omega⟩
  · have hdata : ph.vaddr.toNat + ph.filesz.toNat < 2 ^ 64 := by
      have hv := ph.vaddr.isLt
      by_cases hpos : 0 < ph.filesz
      · have hfirst : UserWrite (.copy ph.vaddr (ioreadat file ph.offset ph.filesz).2) :=
          hall _ (List.mem_append_left _ (by rw [if_pos hpos]; exact .head _))
        change ph.got file = 0 ∨ _ ∧ ph.vaddr.toNat + ph.got file ≤ umemEnd at hfirst
        rw [BitVec.lt_def] at hpos
        simp only [umemEnd] at hfirst
        omega
      · rw [BitVec.lt_def] at hpos
        have hz : (0 : Word).toNat = 0 := rfl
        omega
    split at hw
    case isFalse => cases hw
    case isTrue hless =>
      obtain rfl := List.mem_singleton.mp hw
      change (ph.vaddr + ph.filesz).toNat ≤ _ ∧
        _ < (ph.vaddr + ph.filesz).toNat + (ph.memsz - ph.filesz).toNat at hbounds
      rw [BitVec.toNat_add, Nat.mod_eq_of_lt hdata,
        BitVec.toNat_sub_of_le (by rw [BitVec.le_def]; exact hsize)] at hbounds
      exact ⟨by omega, by omega⟩

/-- Off the segments and the top page nothing is left of the caller's bytes, and the pages of the
caller that are no longer mapped are free. -/
def Clean (m : Memory) (file : File) (m' : Memory) (free' : Finset Nat) : Prop :=
  (∀ va, IsUser va → ¬ OnTop va → ¬ InSegment file va →
      translate m' (activeRoot m') va = none ∨ userView m' va = 0) ∧
    ∀ va x, IsUser va → translate m (activeRoot m) va = some x →
      (∀ vb y, IsUser vb → translate m' (activeRoot m') vb = some y → y.ppn ≠ x.ppn) →
      x.ppn.toNat ∈ free'

/-- The new program starts from a clean image when the caller had no page at the top and no bytes
but zeros off the segments. -/
theorem processExec_clean_iff (h : UserPages lo hi hlo hhi m cs free)
    (hexec : processExec isProc (some file) argc argv m = some (.jump sepc sp a0 a1 blocks, m')) :
    ∃ cs' free', FreeList lo hi m' cs' free' ∧
      (Clean m file m' free' ↔ translate m (activeRoot m) stackTop = none ∧
        ∀ va, IsUser va → ¬ OnTop va → ¬ InSegment file va → userView m va = 0) := by
  obtain ⟨stksz, free', himage, -⟩ := image h hexec
  obtain ⟨cs', hpages⟩ := himage.pages
  refine ⟨cs', free', hpages.tree.list, ?_⟩
  have hbytes : ∀ va, IsUser va → ¬ OnTop va → ¬ InSegment file va →
      userView m' va = userView m va := by
    intro va hva hon hseg
    rw [himage.off hva hon]
    exact MemWrite.applyAll_off fun w hw hcov => hseg (inSegment_of_covers himage.writes hw hcov)
  rw [Clean, and_comm]
  refine and_congr ?_ ?_
  · rw [himage.root]
    constructor
    · intro hfreed
      by_contra hmapped
      obtain ⟨x, hx⟩ := Option.ne_none_iff_exists'.mp hmapped
      obtain ⟨-, hfree, -⟩ := h.held isUser_stackTop hx
      refine hfree (himage.subset (hfreed stackTop x isUser_stackTop hx fun vb y hvb hy hppn => ?_))
      -- a page that is mapped now was free, or it is another page of the caller
      by_cases hnew : OnTop vb ∨ translate m (activeRoot m) vb = none
      · exact hfree (hppn ▸ himage.taken hvb hy hnew)
      · obtain ⟨hon, hold⟩ := not_or.mp hnew
        obtain ⟨z, hz⟩ := Option.ne_none_iff_exists'.mp hold
        obtain rfl := Option.some.inj ((himage.keep hon hz).symm.trans hy)
        exact hon (h.once hvb isUser_stackTop hz hx hppn)
    · intro hnone va x hva hx hgone
      have hon : ¬ OnTop va := by
        intro hon
        rw [translate_samePage hva isUser_stackTop hon, hnone] at hx
        cases hx
      exact absurd rfl (hgone va x hva (himage.keep hon hx))
  · refine forall_congr' fun va => forall₃_congr fun hva hon hseg => ?_
    rw [← hbytes va hva hon hseg, himage.root]
    refine or_iff_right_of_imp fun hnone => userView_of_unmapped ?_
    rw [himage.root, hnone]

/-! ## The arguments -/

instance : DecidablePred IsUser := fun _ => inferInstanceAs (Decidable (_ ∧ _))

/-- `build_stack` copies strings that are out of the way. -/
theorem copied {m2 : Memory} {cs2 : List Ptr}
    {free2 : Finset Nat} (h : UserPages lo hi hlo hhi m2 cs2 free2)
    (haway : ∀ {a}, Away a → IsUser a ∧ ¬ OnTop a) (hlen : argc.toNat = strs.length)
    (hfew : argc.toNat < pageSize / 8) (hargs : ArgsFrom (userView m2) Away argv 0 strs)
    (hbuild : paged.run (buildStack stackTop argc argv) m2 = some (((stksz : Int), blocks), m')) :
    blocks = terminated strs := by
  have hps : pageSize = 4096 := rfl
  have hue : umemEnd = 0xF0000000 := rfl
  have hus : umemStart = 0xC0000000 := rfl
  have htop : stackTop.toNat = umemEnd - pageSize := rfl
  have hstart : stackTop.toNat ≤ stackStart stackTop strs ∧
      stackStart stackTop strs < stackTop.toNat + pageSize := by
    rw [stackStart, stackSize]
    omega
  have hreg : Region IsUser Away (stackStart stackTop strs) (stackTop.toNat + pageSize) := by
    refine ⟨fun {a} ha => ⟨(haway ha).1, ?_⟩, fun {a} hle hlt => ?_, hstart.2, by decide⟩
    · obtain ⟨huser, hon⟩ := haway ha
      rw [onTop_iff] at hon
      have hlt := huser.2
      omega
    · rw [IsUser]
      omega
  have hsmall : ¬ BitVec.ofNat 64 (pageSize / 8 - 1) < argc.signExtend 64 := by
    rw [argc_test, BitVec.toInt_eq_toNat_cond]
    split <;> omega
  obtain ⟨v, hflat⟩ := flatOn_buildStack hreg hlen hsmall hargs
  obtain ⟨heq, -⟩ := (UserPages.shows lo hi hlo hhi).run ⟨cs2, free2, h⟩ (fun _ _ => rfl) hflat hbuild
  split at heq
  case isTrue => exact (Prod.mk.inj heq).2
  case isFalse =>
    have hbad := (Prod.mk.inj heq).1
    rw [ENOMEM] at hbad
    omega

end Jump

/-- A program without segments. -/
def noSegments : File := headersOnly 0xC0000000 []

/-- The first program of a process. -/
theorem processExec_clean_roomySpace :
    ∃ m' cs' free', (processExec true (some noSegments) 0 0 roomySpace).map Prod.snd = some m' ∧
      FreeList 2 16 m' cs' free' ∧ Clean roomySpace noSegments m' free' := by
  obtain ⟨cs, h⟩ := roomySpace_pages
  have hroot : activeRoot roomySpace = 1 := by decide +kernel
  have hend : (processExec true (some noSegments) 0 0 roomySpace).map Prod.fst =
      some (.jump 0xC0000000 0xEFFFFFF0 0 0xEFFFFFF0 []) := by
    decide +kernel
  obtain ⟨⟨e, m'⟩, hexec, rfl⟩ := Option.map_eq_some_iff.mp hend
  obtain ⟨cs', free', hlist, hiff⟩ := processExec_clean_iff h hexec
  have hentry : ∀ i, roomySpace.entry (activeRoot roomySpace) i = nullPte := by
    rw [hroot]
    decide +kernel
  refine ⟨m', cs', free', by rw [hexec]; rfl, hlist, hiff.mpr ⟨translate_barren hentry _, fun va _ _ _ => ?_⟩⟩
  exact userView_of_unmapped (translate_barren hentry va)

/-- The new program reads what the caller had below its stack page, and the caller's stack page is
lost. -/
theorem processExec_leaves_bytes :
    ∃ cs free m', UserPages 2 16 (by decide) (by decide) caller cs free ∧
      processExec true (some noSegments) 0 0 caller =
        some (.jump 0xC0000000 0xEFFFFFF0 0 0xEFFFFFF0 [], m') ∧
      userView m' 0xEFFFE001 = 0xFF ∧ ∀ cs' free', FreeList 2 16 m' cs' free' →
        ¬ Clean caller noSegments m' free' := by
  obtain ⟨cs, free, h⟩ := caller_pages
  have hend : (processExec true (some noSegments) 0 0 caller).map
      (fun (e, m') => (e, userView m' 0xEFFFE001, (translate m' (activeRoot m') 0xEFFFE001).isSome)) =
      some (.jump 0xC0000000 0xEFFFFFF0 0 0xEFFFFFF0 [], 0xFF, true) := by
    decide +kernel
  obtain ⟨⟨e, m'⟩, hexec, hpair⟩ := Option.map_eq_some_iff.mp hend
  simp only [Prod.mk.injEq] at hpair
  obtain ⟨rfl, hbyte, hmapped⟩ := hpair
  have hreached : reached noSegments = [] := by decide +kernel
  refine ⟨cs, free, m', h, hexec, hbyte, fun cs' free' _ hclean => ?_⟩
  rcases hclean.1 0xEFFFE001 ⟨by decide, by decide⟩ (by decide) (by simp [InSegment, hreached]) with hnone | hzero
  · rw [hnone] at hmapped
    cases hmapped
  · rw [hbyte] at hzero
    exact absurd hzero (by decide)

end Exec

end MiniOs
