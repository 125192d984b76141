import MiniOs.Base.Links
import MiniOs.Memory.Model
import Mathlib.Order.Interval.Finset.Nat

/-!
# The physical page allocator

The free pages are kept in chunks of consecutive pages.  A chunk is named by the address of its
first page, which also holds its header, and `FreeList` says that the chunks on the list are
disjoint and together are a given set of free pages.  Allocation and freeing write only to free
pages, so the pages of clients keep what is in them.
-/

namespace MiniOs.Memory

variable {i : Nat} {cnt : Word} {place : Option Ptr}

/-- The number of the page that an address is in. -/
def frame (p : Ptr) : Nat := p.toNat / pageSize

/-- The number of pages of a chunk. -/
def size (m : Memory) (c : Ptr) : Nat := (m.load c 1).toNat

/-- Page `f` is one of the chunk's. -/
def Covers (m : Memory) (c : Ptr) (f : Nat) : Prop := frame c ≤ f ∧ f < frame c + m.size c

/-- A pointer as a link of a list. -/
def link (p : Ptr) : Option Ptr := if p = 0 then none else some p

/-- The links of the chunk list. -/
def next (m : Memory) (c : Ptr) : Option Ptr := link (m.load c 0)

variable {m m' : Memory} {p c : Ptr} {best : Option (Option Ptr × Ptr)}

/-! ## Addresses -/

/-- The address is that of a page. -/
def Aligned (p : Ptr) : Prop := p.toNat % pageSize = 0

instance (p : Ptr) : Decidable (Aligned p) := inferInstanceAs (Decidable (_ = _))

theorem Aligned.toNat_eq (h : Aligned p) : p.toNat = pageSize * frame p := by
  have := Nat.div_add_mod p.toNat pageSize
  rw [Aligned] at h
  rw [frame]
  omega

theorem Aligned.word_eq (h : Aligned p) (i : Nat) : p.toNat / 8 + i = pteCnt * frame p + i := by
  have := h.toNat_eq
  simp only [pageSize, pteCnt] at this ⊢
  omega

/-- Word `i` of page `f` is in page `f`. -/
theorem word_div (f : Nat) (hi : i < pteCnt) : (pteCnt * f + i) / pteCnt = f := by
  simp only [pteCnt] at hi ⊢
  omega

theorem Aligned.load_eq (h : Aligned p) (m : Memory) (i : Nat) :
    m.load p i = m.word (pteCnt * frame p + i) := by
  rw [load, h.word_eq]

theorem Aligned.eq_of_frame {q : Ptr} (hp : Aligned p) (hq : Aligned q) (h : frame p = frame q) :
    p = q := by
  apply BitVec.eq_of_toNat_eq
  rw [hp.toNat_eq, hq.toNat_eq, h]

theorem load_store_ne {q : Ptr} {j : Nat} {w : Word} (h : p.toNat / 8 + i ≠ q.toNat / 8 + j) :
    (m.store q j w).load p i = m.load p i := Function.update_of_ne h _ _

theorem load_store_self {w : Word} : (m.store p i w).load p i = w :=
  Function.update_self ..

/-- Only the pages `fs` are written to. -/
structure Within (fs : Set Nat) (m m' : Memory) : Prop where
  word : ∀ j, j / pteCnt ∉ fs → m'.word j = m.word j
  satp : m'.satp = m.satp

namespace Within

variable {fs gs : Set Nat}

theorem refl (fs : Set Nat) (m : Memory) : Within fs m m := ⟨fun _ _ => rfl, rfl⟩

theorem trans {m1 m2 : Memory} (h1 : Within fs m m1) (h2 : Within fs m1 m2) : Within fs m m2 :=
  ⟨fun j hj => (h2.word j hj).trans (h1.word j hj), h2.satp.trans h1.satp⟩

theorem mono (h : Within fs m m') (hsub : fs ⊆ gs) : Within gs m m' :=
  ⟨fun j hj => h.word j fun hf => hj (hsub hf), h.satp⟩

theorem store (m : Memory) (hp : Aligned p) (hf : frame p ∈ fs) (hi : i < pteCnt)
    (w : Word) : Within fs m (m.store p i w) := by
  refine ⟨fun j hj => Function.update_of_ne ?_ _ _, rfl⟩
  rintro rfl
  rw [hp.word_eq, word_div _ hi] at hj
  exact hj hf

theorem load (h : Within fs m m') (hp : Aligned p) (hf : frame p ∉ fs) (hi : i < pteCnt) :
    m'.load p i = m.load p i := by
  rw [hp.load_eq, hp.load_eq]
  refine h.word _ ?_
  rwa [word_div _ hi]

end Within

theorem link_eq_some {a b : Ptr} : link a = some b ↔ a = b ∧ b ≠ 0 := by
  by_cases h : a = 0
  · subst h
    simp [link]
    rintro rfl
    rfl
  · simp only [link, if_neg h, Option.some.injEq]
    constructor
    · rintro rfl
      exact ⟨rfl, h⟩
    · rintro ⟨rfl, -⟩
      rfl

theorem link_readLink (m : Memory) (place : Option Ptr) :
    link (m.readLink place) = linkAt m.next (link m.freeChunkList) place := by
  cases place <;> rfl

/-! ## The chunk list -/

/-- The chunks of the list, in its order, are disjoint and inside the pages `lo` to `hi`, and
`free` are their pages. -/
structure FreeList (lo hi : Nat) (m : Memory) (cs : List Ptr) (free : Finset Nat) : Prop where
  chain : Chain m.next (link m.freeChunkList) cs
  aligned : ∀ c ∈ cs, Aligned c
  pos : ∀ c ∈ cs, 0 < m.size c
  inside : ∀ c ∈ cs, lo ≤ frame c ∧ frame c + m.size c ≤ hi
  disjoint : cs.Pairwise fun c d => ∀ f, m.Covers c f → ¬ m.Covers d f
  mem_iff : ∀ f, f ∈ free ↔ ∃ c ∈ cs, m.Covers c f

namespace FreeList

variable {lo hi : Nat} {cs : List Ptr} {free : Finset Nat}

section

variable (h : FreeList lo hi m cs free)

include h

theorem covers_self (hc : c ∈ cs) : m.Covers c (frame c) :=
  ⟨Nat.le_refl _, Nat.lt_add_of_pos_right (h.pos c hc)⟩

theorem frame_mem (hc : c ∈ cs) : frame c ∈ free :=
  (h.mem_iff _).mpr ⟨c, hc, h.covers_self hc⟩

variable {f : Nat}

theorem bounds (hf : f ∈ free) : lo ≤ f ∧ f < hi := by
  obtain ⟨c, hc, hcf⟩ := (h.mem_iff f).mp hf
  have hin := h.inside c hc
  rw [Covers] at hcf
  omega

theorem ne_zero (hlo : 0 < lo) (hc : c ∈ cs) : c ≠ 0 := by
  rintro rfl
  have hin := (h.inside 0 hc).1
  have hz : frame (0 : Ptr) = 0 := rfl
  omega

theorem nodup : cs.Nodup := by
  refine h.disjoint.imp_of_mem fun {c d} hc _ hcd => ?_
  rintro rfl
  exact hcd _ (h.covers_self hc) (h.covers_self hc)

theorem eq_of_covers {d : Ptr} (hc : c ∈ cs) (hd : d ∈ cs)
    (hcf : m.Covers c f) (hdf : m.Covers d f) : c = d := by
  by_contra hne
  have : Std.Symm fun c d => ∀ f, m.Covers c f → ¬ m.Covers d f :=
    ⟨fun a b hab f hb ha => hab f ha hb⟩
  exact h.disjoint.forall hc hd hne f hcf hdf

theorem mono {lo' hi' : Nat} (hlo : lo' ≤ lo) (hhi : hi ≤ hi') :
    FreeList lo' hi' m cs free :=
  { h with inside := fun c hc => ⟨hlo.trans (h.inside c hc).1, (h.inside c hc).2.trans hhi⟩ }

/-- A memory has one free list. -/
theorem unique {cs' : List Ptr} {free' : Finset Nat}
    (h' : FreeList lo hi m cs' free') : free = free' := by
  obtain rfl := h.chain.unique h'.chain
  ext f
  rw [h.mem_iff, h'.mem_iff]

/-- The allocator looks at free pages only. -/
theorem congr (hlist : m'.freeChunkList = m.freeChunkList)
    (hword : ∀ j, j / pteCnt ∈ free → m'.word j = m.word j) : FreeList lo hi m' cs free := by
  have hload : ∀ c ∈ cs, ∀ i, i < 2 → m'.load c i = m.load c i := by
    intro c hc i hi
    rw [(h.aligned c hc).load_eq, (h.aligned c hc).load_eq]
    refine hword _ ?_
    rw [word_div (frame c) (by simp only [pteCnt]; omega)]
    exact h.frame_mem hc
  have hsize : ∀ c ∈ cs, m'.size c = m.size c := fun c hc => by
    rw [size, size, hload c hc 1 (by decide)]
  have hcov : ∀ c ∈ cs, ∀ f, m'.Covers c f ↔ m.Covers c f := fun c hc f => by
    rw [Covers, Covers, hsize c hc]
  refine ⟨?_, h.aligned, fun c hc => ?_, fun c hc => ?_, ?_, fun f => ?_⟩
  · rw [hlist]
    refine h.chain.congr fun c hc => ?_
    rw [next, next, hload c hc 0 (by decide)]
  · rw [hsize c hc]
    exact h.pos c hc
  · rw [hsize c hc]
    exact h.inside c hc
  · refine h.disjoint.imp_of_mem fun {c d} hc hd hcd f hcf hdf => ?_
    exact hcd f ((hcov c hc f).mp hcf) ((hcov d hd f).mp hdf)
  · rw [h.mem_iff]
    constructor
    · rintro ⟨c, hc, hcf⟩
      exact ⟨c, hc, (hcov c hc f).mpr hcf⟩
    · rintro ⟨c, hc, hcf⟩
      exact ⟨c, hc, (hcov c hc f).mp hcf⟩

/-- A page that is not free does not matter. -/
theorem within (hwithin : Within {f} m m') (hlist : m'.freeChunkList = m.freeChunkList)
    (hf : f ∉ free) : FreeList lo hi m' cs free :=
  h.congr hlist fun j hj => hwithin.word j fun hin => hf (Set.mem_singleton_iff.mp hin ▸ hj)

theorem store {p : Ptr} (hp : Aligned p) (hf : frame p ∉ free) (i : Fin pteCnt) (w : Word) :
    FreeList lo hi (m.store p i w) cs free :=
  h.within (.store m hp (Set.mem_singleton _) i.isLt w) rfl hf

end

end FreeList

/-! ## Best fit -/

/-- The best chunk among `cs`, with the place of the link to it. -/
def Best (m : Memory) (cnt : Word) (cs : List Ptr) : Option (Option Ptr × Ptr) → Prop
  | none => ∀ c ∈ cs, m.size c < cnt.toNat
  | some (place, b) => ∃ pre post, cs = pre ++ b :: post ∧ place = pre.getLast? ∧
      cnt.toNat ≤ m.size b ∧ ∀ c ∈ cs, cnt.toNat ≤ m.size c → m.size b ≤ m.size c

/-- One more chunk is looked at. -/
theorem Best.snoc {cs : List Ptr} (h : Best m cnt cs best) (c : Ptr) :
    Best m cnt (cs ++ [c])
      (if cnt ≤ m.load c 1 ∧ m.better c best = true then some (cs.getLast?, c) else best) := by
  have hle : cnt ≤ m.load c 1 ↔ cnt.toNat ≤ m.size c := Iff.rfl
  cases best with
  | none =>
    by_cases hc : cnt ≤ m.load c 1
    · rw [if_pos ⟨hc, rfl⟩]
      refine ⟨cs, [], rfl, rfl, hle.mp hc, fun d hd hdc => ?_⟩
      rcases List.mem_append.mp hd with hd | hd
      · have := h d hd
        omega
      · rw [List.mem_singleton.mp hd]
    · rw [if_neg fun hand => hc hand.1]
      intro d hd
      rcases List.mem_append.mp hd with hd | hd
      · exact h d hd
      · rw [List.mem_singleton.mp hd]
        rw [hle] at hc
        omega
  | some pb =>
    obtain ⟨place, b⟩ := pb
    have hlt : m.load c 1 < m.load b 1 ↔ m.size c < m.size b := Iff.rfl
    obtain ⟨pre, post, rfl, hplace, hfit, hmin⟩ := h
    by_cases hc : cnt ≤ m.load c 1 ∧ m.load c 1 < m.load b 1
    · rw [if_pos ⟨hc.1, decide_eq_true hc.2⟩]
      refine ⟨pre ++ b :: post, [], rfl, rfl, hle.mp hc.1, fun d hd hdc => ?_⟩
      rcases List.mem_append.mp hd with hd | hd
      · have := hmin d hd hdc
        have := hlt.mp hc.2
        omega
      · rw [List.mem_singleton.mp hd]
    · rw [if_neg fun hand => hc ⟨hand.1, of_decide_eq_true hand.2⟩]
      refine ⟨pre, post ++ [c], by simp, hplace, hfit, fun d hd hdc => ?_⟩
      rcases List.mem_append.mp hd with hd | hd
      · exact hmin d hd hdc
      · rw [List.mem_singleton.mp hd] at hdc ⊢
        by_contra hnot
        exact hc ⟨hle.mpr hdc, hlt.mpr (by omega)⟩

/-- The loop of `alloc_phys_pages` finds the best chunk. -/
theorem bestFit_spec {pre rest : List Ptr}
    {fuel : Nat} (hc : Chain m.next (link m.freeChunkList) (pre ++ rest)) (hb : Best m cnt pre best)
    (hf : rest.length < fuel) :
    ∃ best', m.bestFit cnt fuel pre.getLast? best = some best' ∧ Best m cnt (pre ++ rest) best' := by
  induction rest generalizing pre best fuel with
  | nil =>
    obtain ⟨fuel, rfl⟩ : ∃ n, fuel = n + 1 := ⟨fuel - 1, by omega⟩
    have hlink := hc.linkAt_eq
    rw [← link_readLink, List.head?_nil] at hlink
    have hz : m.readLink pre.getLast? = 0 := by
      by_contra hne
      rw [link, if_neg hne] at hlink
      cases hlink
    refine ⟨best, ?_, by rwa [List.append_nil]⟩
    simp only [bestFit, hz, if_true]
  | cons c rest ih =>
    obtain ⟨fuel, rfl⟩ : ∃ n, fuel = n + 1 := ⟨fuel - 1, by omega⟩
    have hlink := hc.linkAt_eq
    rw [← link_readLink, List.head?_cons, link_eq_some] at hlink
    have hc' : Chain m.next (link m.freeChunkList) ((pre ++ [c]) ++ rest) := by
      rw [List.append_assoc]
      exact hc
    obtain ⟨best', heq, hbest⟩ := ih hc' (hb.snoc c) (Nat.lt_of_succ_lt_succ hf)
    refine ⟨best', ?_, by rw [List.append_assoc] at hbest; exact hbest⟩
    simp only [bestFit, hlink.1, if_neg hlink.2, ← heq, List.getLast?_concat]

/-! ## Allocation -/

theorem writeLink_next {v : Ptr} (hplace : ∀ q, place = some q → Aligned q) (hc : Aligned c) :
    (m.writeLink place v).next c = (setLink m.next (link m.freeChunkList) place (link v)).1 c := by
  cases place with
  | none => rfl
  | some q =>
    have hq := hplace q rfl
    by_cases hcq : c = q
    · subst hcq
      simp only [writeLink, next, load_store_self, setLink, Function.update_self]
    · simp only [writeLink, next, setLink, Function.update_of_ne hcq]
      rw [load_store_ne]
      rw [hc.word_eq, hq.word_eq]
      intro heq
      exact hcq (hc.eq_of_frame hq (by simp only [pteCnt] at heq; omega))

theorem writeLink_head {v : Ptr} :
    link (m.writeLink place v).freeChunkList =
      (setLink m.next (link m.freeChunkList) place (link v)).2 := by
  cases place <;> rfl

theorem writeLink_size {v : Ptr} (hplace : ∀ q, place = some q → Aligned q)
    (hc : Aligned c) : (m.writeLink place v).size c = m.size c := by
  cases place with
  | none => rfl
  | some q =>
    rw [size, size, writeLink, load_store_ne]
    rw [hc.word_eq, (hplace q rfl).word_eq]
    simp only [pteCnt]
    omega

namespace FreeList

variable {lo hi : Nat} {cs pre post : List Ptr} {b v : Ptr} {free : Finset Nat}

/-- A chunk is exchanged for what is left of it: nothing, or one chunk. -/
theorem exchange (h : FreeList lo hi m (pre ++ b :: post) free) {mid : List Ptr}
    {taken : Finset Nat} (hlist : m'.freeChunkList = m.freeChunkList)
    (hload : ∀ c ∈ pre ++ b :: post, ∀ i < 2, m'.load c i = m.load c i)
    (hchain : Chain m'.next (link v) (mid ++ post)) (hal : ∀ c ∈ mid, Aligned c)
    (hpos : ∀ c ∈ mid, 0 < m'.size c) (hone : mid.length ≤ 1)
    (hcov : ∀ f, (∃ c ∈ mid, m'.Covers c f) ↔ m.Covers b f ∧ f ∉ taken)
    (htaken : ∀ f ∈ taken, m.Covers b f) :
    FreeList lo hi (m'.writeLink pre.getLast? v) (pre ++ (mid ++ post)) (free \ taken) := by
  have hplace : ∀ q, pre.getLast? = some q → Aligned q := fun q hq =>
    h.aligned q (List.mem_append_left _ (List.mem_of_getLast? hq))
  have hb : b ∈ pre ++ b :: post := by simp
  -- a chunk of the new list is one of the others, or what is left
  have hmem : ∀ {c}, c ∈ pre ++ (mid ++ post) → c ∈ mid ∨ c ∈ pre ++ b :: post ∧ c ≠ b := by
    intro c hc
    have hnd := h.nodup
    rw [List.nodup_append, List.nodup_cons] at hnd
    simp only [List.mem_append] at hc
    rcases hc with hc | hc | hc
    · refine .inr ⟨by simp [hc], ?_⟩
      rintro rfl
      exact hnd.2.2 c hc c (List.mem_cons_self ..) rfl
    · exact .inl hc
    · refine .inr ⟨by simp [hc], ?_⟩
      rintro rfl
      exact hnd.2.1.1 hc
  have hal' : ∀ c ∈ pre ++ (mid ++ post), Aligned c := by
    intro c hc
    rcases hmem hc with hc | hc
    · exact hal c hc
    · exact h.aligned c hc.1
  have hcov' : ∀ {c}, c ∈ pre ++ (mid ++ post) → ∀ f, (m'.writeLink pre.getLast? v).Covers c f ↔
      m'.Covers c f := by
    intro c hc f
    rw [Covers, Covers, writeLink_size hplace (hal' c hc)]
  have hsame : ∀ c ∈ pre ++ b :: post, ∀ f, m'.Covers c f ↔ m.Covers c f := by
    intro c hc f
    rw [Covers, Covers, size, size, hload c hc 1 (by decide)]
  -- what is left lies inside the old chunk
  have hin : ∀ {c}, c ∈ mid → ∀ f, m'.Covers c f → m.Covers b f := fun hc f hf =>
    ((hcov f).mp ⟨_, hc, hf⟩).1
  refine ⟨?_, hal', fun c hc => ?_, fun c hc => ?_, ?_, fun f => ?_⟩
  · have hold : Chain m'.next (link m'.freeChunkList) (pre ++ b :: post) := by
      rw [hlist]
      refine h.chain.congr fun c hc => ?_
      rw [next, next, hload c hc 0 (by decide)]
    have hnd := h.nodup
    rw [List.nodup_append] at hnd
    have hsplice := hold.splice hnd.1 (fun c hc hc' => ?_) hchain
    · rw [writeLink_head]
      exact hsplice.congr fun c hc => writeLink_next hplace (hal' c hc)
    · rcases List.mem_append.mp hc' with hmid | hpost
      · have hcb := hin hmid _ ⟨Nat.le_refl _, Nat.lt_add_of_pos_right (hpos c hmid)⟩
        have hcpre : c ∈ pre ++ b :: post := List.mem_append_left _ hc
        exact hnd.2.2 c hc b (List.mem_cons_self ..) (h.eq_of_covers hcpre hb (h.covers_self hcpre) hcb)
      · exact hnd.2.2 c hc c (List.mem_cons_of_mem _ hpost) rfl
  · rw [writeLink_size hplace (hal' c hc)]
    rcases hmem hc with hmid | hold
    · exact hpos c hmid
    · rw [size, hload c hold.1 1 (by decide)]
      exact h.pos c hold.1
  · rw [writeLink_size hplace (hal' c hc)]
    rcases hmem hc with hmid | hold
    · have hp := hpos c hmid
      have hfirst := hin hmid (frame c) ⟨Nat.le_refl _, by omega⟩
      have hlast := hin hmid (frame c + m'.size c - 1) ⟨by omega, by omega⟩
      have hbin := h.inside b hb
      rw [Covers] at hfirst hlast
      omega
    · rw [size, hload c hold.1 1 (by decide)]
      exact h.inside c hold.1
  · have hpair : (pre ++ (mid ++ post)).Pairwise fun c d => ∀ f, m'.Covers c f → ¬ m'.Covers d f := by
      have hdis := h.disjoint
      have hout : ∀ c ∈ mid, ∀ d ∈ pre ++ b :: post, d ≠ b → ∀ f, m'.Covers c f → ¬ m'.Covers d f := by
        intro c hc d hd hdb f hcf hdf
        exact hdb (h.eq_of_covers hd hb ((hsame d hd f).mp hdf) (hin hc f hcf))
      have hnd := h.nodup
      rw [List.nodup_append, List.nodup_cons] at hnd
      rw [List.pairwise_append, List.pairwise_cons] at hdis
      rw [List.pairwise_append, List.pairwise_append]
      refine ⟨?_, ⟨?_, ?_, ?_⟩, ?_⟩
      · refine hdis.1.imp_of_mem fun {c d} hc hd hcd f hcf hdf => ?_
        exact hcd f ((hsame c (by simp [hc]) f).mp hcf) ((hsame d (by simp [hd]) f).mp hdf)
      · match mid, hone with
        | [], _ => exact List.Pairwise.nil
        | [c], _ => exact List.pairwise_singleton ..
      · refine hdis.2.1.2.imp_of_mem fun {c d} hc hd hcd f hcf hdf => ?_
        exact hcd f ((hsame c (by simp [hc]) f).mp hcf) ((hsame d (by simp [hd]) f).mp hdf)
      · intro c hc d hd f hcf hdf
        refine hout c hc d (by simp [hd]) ?_ f hcf hdf
        rintro rfl
        exact hnd.2.1.1 hd
      · intro c hc d hd f hcf hdf
        rcases List.mem_append.mp hd with hd | hd
        · refine hout d hd c (by simp [hc]) ?_ f hdf hcf
          rintro rfl
          exact hnd.2.2 c hc c (List.mem_cons_self ..) rfl
        · exact hdis.2.2 c hc d (List.mem_cons_of_mem _ hd) f
            ((hsame c (by simp [hc]) f).mp hcf) ((hsame d (by simp [hd]) f).mp hdf)
    exact hpair.imp_of_mem fun {c d} hc hd hcd f hcf hdf =>
      hcd f ((hcov' hc f).mp hcf) ((hcov' hd f).mp hdf)
  · rw [Finset.mem_sdiff, h.mem_iff]
    constructor
    · rintro ⟨⟨c, hc, hcf⟩, hf⟩
      by_cases hcb : c = b
      · subst hcb
        obtain ⟨d, hd, hdf⟩ := (hcov f).mpr ⟨hcf, hf⟩
        have hd' : d ∈ pre ++ (mid ++ post) := by simp [hd]
        exact ⟨d, hd', (hcov' hd' f).mpr hdf⟩
      · have hc' : c ∈ pre ++ (mid ++ post) := by
          simp only [List.mem_append, List.mem_cons, hcb, false_or] at hc ⊢
          tauto
        exact ⟨c, hc', (hcov' hc' f).mpr ((hsame c hc f).mpr hcf)⟩
    · rintro ⟨c, hc, hcf⟩
      rw [hcov' hc] at hcf
      rcases hmem hc with hmid | hold
      · obtain ⟨hbf, hnt⟩ := (hcov f).mp ⟨c, hmid, hcf⟩
        exact ⟨⟨b, hb, hbf⟩, hnt⟩
      · rw [hsame c hold.1] at hcf
        exact ⟨⟨c, hold.1, hcf⟩, fun ht => hold.2 (h.eq_of_covers hold.1 hb hcf (htaken f ht))⟩

/-- The chunk behind the first `cnt` pages of a chunk. -/
theorem remainder_spec (h : FreeList lo hi m cs free) (hhi : hi < 2 ^ 52) (hb : b ∈ cs)
    (hlt : cnt.toNat < m.size b) :
    Aligned (b + cnt * BitVec.ofNat 64 pageSize) ∧
      frame (b + cnt * BitVec.ofNat 64 pageSize) = frame b + cnt.toNat := by
  have hin := h.inside b hb
  have hal := h.aligned b hb
  have hbn := hal.toNat_eq
  have hmul : (cnt * BitVec.ofNat 64 pageSize).toNat = cnt.toNat * pageSize := by
    rw [BitVec.toNat_mul, BitVec.toNat_ofNat]
    simp only [pageSize]
    omega
  have hadd : (b + cnt * BitVec.ofNat 64 pageSize).toNat = pageSize * (frame b + cnt.toNat) := by
    rw [BitVec.toNat_add, hmul, hbn]
    simp only [pageSize]
    omega
  refine ⟨?_, ?_⟩
  · rw [Aligned, hadd]
    exact Nat.mul_mod_right _ _
  · rw [frame, hadd]
    exact Nat.mul_div_cancel_left _ (by decide)

/-- What is left of a chunk whose first `cnt` pages are taken. -/
inductive Left (m m' : Memory) (cnt : Nat) (b : Ptr) : List Ptr → Prop where
  | nothing : m.size b = cnt → Left m m' cnt b []
  | rest {r : Ptr} : frame r = frame b + cnt → m'.size r + cnt = m.size b → cnt < m.size b →
      Left m m' cnt b [r]

/-- The first `cnt` pages of chunk `b` were taken, and no other chunk changed. -/
def Took (lo hi : Nat) (m m' : Memory) (free : Finset Nat) (cnt : Nat) (pre : List Ptr) (b : Ptr)
    (post : List Ptr) : Prop :=
  ∃ mid, FreeList lo hi m' (pre ++ (mid ++ post)) (free \ Finset.Ico (frame b) (frame b + cnt)) ∧
    Left m m' cnt b mid ∧ ∀ c ∈ pre ++ post, m'.size c = m.size c

section

variable (h : FreeList lo hi m (pre ++ b :: post) free)

include h

theorem chain_next : Chain m.next (m.next b) post := by
  have hc := h.chain
  clear h
  generalize link m.freeChunkList = head at hc
  induction pre generalizing head with
  | nil => exact hc.2
  | cons c pre ih => exact ih _ hc.2

theorem aligned_place :
    ∀ q, pre.getLast? = some q → Aligned q := fun q hq =>
  h.aligned q (List.mem_append_left _ (List.mem_of_getLast? hq))

/-- The whole chunk is taken. -/
theorem unlink_chunk (heq : m.size b = cnt.toNat) :
    Took lo hi m (m.writeLink pre.getLast? (m.load b 0)) free cnt.toNat pre b post := by
  refine ⟨[], h.exchange rfl (fun _ _ _ _ => rfl) h.chain_next nofun nofun (by simp) ?_ ?_,
    .nothing heq, ?_⟩
  · intro f
    rw [Finset.mem_Ico]
    simp only [List.not_mem_nil, false_and, exists_false, Covers, heq, false_iff]
    omega
  · intro f hf
    rw [Finset.mem_Ico] at hf
    rw [Covers]
    omega
  · intro c hc
    have hc' : c ∈ pre ++ b :: post := by
      simp only [List.mem_append, List.mem_cons] at hc ⊢
      tauto
    exact writeLink_size h.aligned_place (h.aligned c hc')

end

/-- The memory with the header of the tail `r` of chunk `b`. -/
def splitChunk (m : Memory) (cnt : Word) (b r : Ptr) : Memory :=
  (m.store r 0 (m.load b 0)).store r 1 ((m.store r 0 (m.load b 0)).load b 1 - cnt)

section

variable (h : FreeList lo hi m (pre ++ b :: post) free)

include h

/-- The tail of the chunk stays on the list. -/
theorem split_chunk {r : Ptr} (hpos : 0 < cnt.toNat)
    (hlt : cnt.toNat < m.size b) (hral : Aligned r) (hrf : frame r = frame b + cnt.toNat) :
    Took lo hi m ((splitChunk m cnt b r).writeLink pre.getLast? r) free cnt.toNat pre b post := by
  have hb : b ∈ pre ++ b :: post := by simp
  have hrb : m.Covers b (frame r) := by
    rw [Covers, hrf]
    omega
  have hne : ∀ c ∈ pre ++ b :: post, frame c ≠ frame r := by
    intro c hc heq
    have hcb := h.eq_of_covers hc hb (h.covers_self hc) (heq ▸ hrb)
    subst hcb
    omega
  have hkeep : ∀ c ∈ pre ++ b :: post, ∀ (m1 : Memory) i j w, i < 2 → j < 2 →
      (m1.store r j w).load c i = m1.load c i := by
    intro c hc m1 i j w hi hj
    refine load_store_ne ?_
    rw [(h.aligned c hc).word_eq, hral.word_eq]
    have := hne c hc
    simp only [pteCnt]
    omega
  have hload : ∀ c ∈ pre ++ b :: post, ∀ i < 2, (splitChunk m cnt b r).load c i = m.load c i := by
    intro c hc i hi
    rw [splitChunk, hkeep c hc _ i 1 _ hi (by decide), hkeep c hc _ i 0 _ hi (by decide)]
  have hr0 : (splitChunk m cnt b r).load r 0 = m.load b 0 := by
    rw [splitChunk, load_store_ne (by omega), load_store_self]
  have hrsize : (splitChunk m cnt b r).size r = m.size b - cnt.toNat := by
    have hle : cnt ≤ m.load b 1 := Nat.le_of_lt hlt
    rw [size, splitChunk, load_store_self, hkeep b hb _ 1 0 _ (by decide) (by decide),
      BitVec.toNat_sub_of_le hle]
    rfl
  have hrz : r ≠ 0 := by
    rintro rfl
    have hz : frame (0 : Ptr) = 0 := rfl
    omega
  have hchain : Chain (splitChunk m cnt b r).next (link r) ([r] ++ post) := by
    refine ⟨link_eq_some.mpr ⟨rfl, hrz⟩, ?_⟩
    rw [next, hr0]
    refine h.chain_next.congr fun c hc => ?_
    rw [next, next, hload c (by simp [hc]) 0 (by decide)]
  refine ⟨[r], h.exchange rfl hload hchain (by simpa using hral) ?_ (by simp) ?_ ?_, ?_, ?_⟩
  · intro c hc
    rw [List.mem_singleton.mp hc, hrsize]
    omega
  · intro f
    rw [Finset.mem_Ico]
    simp only [List.mem_singleton, exists_eq_left, Covers, hrf, hrsize]
    omega
  · intro f hf
    rw [Finset.mem_Ico] at hf
    rw [Covers]
    omega
  · refine .rest hrf ?_ hlt
    rw [writeLink_size h.aligned_place hral, hrsize]
    omega
  · intro c hc
    have hc' : c ∈ pre ++ b :: post := by
      simp only [List.mem_append, List.mem_cons] at hc ⊢
      tauto
    rw [writeLink_size h.aligned_place (h.aligned c hc'), size, hload c hc' 1 (by decide)]
    rfl

/-- The end of `alloc_phys_pages`. -/
theorem takeChunk (hhi : hi < 2 ^ 52) (hpos : 0 < cnt.toNat) (hle : cnt.toNat ≤ m.size b) :
    Took lo hi m (m.takeChunk cnt pre.getLast? b) free cnt.toNat pre b post := by
  by_cases hlt : cnt < m.load b 1
  · obtain ⟨hral, hrf⟩ := h.remainder_spec hhi (by simp) hlt
    rw [Memory.takeChunk, if_pos hlt]
    exact h.split_chunk hpos hlt hral hrf
  · have heq : m.size b = cnt.toNat := Nat.le_antisymm (Nat.le_of_not_lt hlt) hle
    rw [Memory.takeChunk, if_neg hlt]
    exact h.unlink_chunk heq

/-- It writes to free pages only. -/
theorem takeChunk_within (hhi : hi < 2 ^ 52)
    (cnt : Word) : Within free m (m.takeChunk cnt pre.getLast? b) := by
  have hwrite : ∀ (m1 : Memory) (v : Ptr), Within free m1 (m1.writeLink pre.getLast? v) := by
    intro m1 v
    cases hlast : pre.getLast? with
    | none => exact ⟨fun _ _ => rfl, rfl⟩
    | some q =>
      have hq : q ∈ pre ++ b :: post := List.mem_append_left _ (List.mem_of_getLast? hlast)
      exact .store m1 (h.aligned q hq) (h.frame_mem hq) (by decide) v
  by_cases hlt : cnt < m.load b 1
  · have hb : b ∈ pre ++ b :: post := by simp
    obtain ⟨hral, hrf⟩ := h.remainder_spec hhi hb hlt
    have hcov : m.Covers b (frame (b + cnt * BitVec.ofNat 64 pageSize)) := by
      rw [Covers, hrf]
      exact ⟨Nat.le_add_right _ _, Nat.add_lt_add_left hlt _⟩
    have hfree := (h.mem_iff _).mpr ⟨b, hb, hcov⟩
    rw [Memory.takeChunk, if_pos hlt]
    exact ((Within.store m hral hfree (by decide) _).trans
      (.store _ hral hfree (by decide) _)).trans (hwrite _ _)
  · rw [Memory.takeChunk, if_neg hlt]
    exact hwrite m _

end

end FreeList

end MiniOs.Memory
