import MiniOs.Proc.Stack

/-!
# What `build_stack` leaves for given strings

When the vector and the strings are out of the way of what `build_stack` writes, both of its passes
see the same strings, so the sizes it has added up are those of what it copies.  Then it either
refuses the strings, exactly when they do not fit in a page with the vector, or the end of the page
holds the vector and the strings.
-/

namespace MiniOs.Stack

open Memory MemProg ByteMachine

/-! ## Strings that are out of the way -/

/-- The vector's entry at `q` is `p`, where string `s` is with its terminator; the addresses of both
are `Away`. -/
structure StringAt (m : ByteMem) (Away : Word → Prop) (q p : Word) (s : List UInt8) : Prop where
  entry : m.Holds q (leBytes p.toNat 8)
  entry_away : ∀ k < 8, Away (q + BitVec.ofNat 64 k)
  ne_zero : p ≠ 0
  chars : 0 ∉ s
  bytes : m.Holds p (s ++ [0])
  bytes_away : ∀ k < (s ++ [0]).length, Away (p + BitVec.ofNat 64 k)

/-- The vector's entries from `i` on are for the strings. -/
def ArgsFrom (m : ByteMem) (Away : Word → Prop) (argv : Word) (i : Nat) (ss : List (List UInt8)) :
    Prop := ∀ j s, ss[j]? = some s → ∃ p, StringAt m Away (slot argv (i + j)) p s

section Args

variable {m m' : ByteMem} {Away : Word → Prop} {argv p q : Word} {s : List UInt8}
  {ss : List (List UInt8)} {i : Nat}

theorem StringAt.congr (h : StringAt m Away q p s) (heq : ∀ a, Away a → m' a = m a) :
    StringAt m' Away q p s := by
  refine ⟨h.entry.congr fun k hk => heq _ (h.entry_away k ?_), h.entry_away, h.ne_zero, h.chars,
    h.bytes.congr fun k hk => heq _ (h.bytes_away k hk), h.bytes_away⟩
  rwa [length_leBytes] at hk

theorem ArgsFrom.congr (h : ArgsFrom m Away argv i ss) (heq : ∀ a, Away a → m' a = m a) :
    ArgsFrom m' Away argv i ss := fun j s hs =>
  (h j s hs).imp fun _ hat => hat.congr heq

theorem ArgsFrom.head (h : ArgsFrom m Away argv i (s :: ss)) :
    ∃ p, StringAt m Away (slot argv i) p s := h 0 s rfl

theorem ArgsFrom.tail (h : ArgsFrom m Away argv i (s :: ss)) : ArgsFrom m Away argv (i + 1) ss := by
  intro j s hs
  rw [show i + 1 + j = i + (j + 1) by omega]
  exact h (j + 1) s hs

/-- A string does not go all the way around. -/
theorem StringAt.length_lt (h : StringAt m Away q p s) {x : Word} (hx : ¬ Away x) :
    s.length + 1 < 2 ^ 64 := by
  by_contra hlong
  have hk := (x - p).isLt
  have hat := h.bytes_away (x - p).toNat (by rw [List.length_append, List.length_singleton]; omega)
  rw [BitVec.ofNat_toNat, BitVec.setWidth_eq, BitVec.add_comm, BitVec.sub_add_cancel] at hat
  exact hx hat

end Args

/-- The sizes of the strings with their terminators. -/
def totalSize (ss : List (List UInt8)) : Nat := (ss.map fun s => s.length + 1).sum

theorem totalSize_cons (s : List UInt8) (ss : List (List UInt8)) :
    totalSize (s :: ss) = s.length + 1 + totalSize ss := List.sum_cons

/-- The blocks that are copied: the strings with their terminators. -/
def terminated (ss : List (List UInt8)) : List (List UInt8) := ss.map fun s => s ++ [0]

theorem length_terminated (ss : List (List UInt8)) : (terminated ss).flatten.length = totalSize ss := by
  simp [terminated, totalSize, List.length_flatten, List.map_map, Function.comp_def]

variable {argc : BitVec 32}

section Flat

variable {D Away : Word → Prop} {lo hi : Nat} {bs : List UInt8}

/-- The addresses from `lo` up to `hi` may be used, and so may those that are away from them. -/
structure Region (D : Word → Prop) (Away : Word → Prop) (lo hi : Nat) : Prop where
  away : ∀ {a}, Away a → D a ∧ (a.toNat < lo ∨ hi ≤ a.toNat)
  inside : ∀ {a : Word}, lo ≤ a.toNat → a.toNat < hi → D a
  pos : lo < hi
  lt : hi < 2 ^ 64

theorem Region.not_away (h : Region D Away lo hi) : ∃ x, ¬ Away x := by
  have hpos := h.pos
  have hlt := h.lt
  refine ⟨BitVec.ofNat 64 lo, fun haway => ?_⟩
  have hoff := (h.away haway).2
  rw [BitVec.toNat_ofNat] at hoff
  omega

/-- The addresses of a run of stores in the region. -/
theorem Region.run_inside (h : Region D Away lo hi) {p : Word} {n : Nat} (hlo : lo ≤ p.toNat)
    (hhi : p.toNat + n ≤ hi) : ∀ k < n, D (p + BitVec.ofNat 64 k) := by
  intro k hk
  have hlt := h.lt
  have hp : (p + BitVec.ofNat 64 k).toNat = p.toNat + k := toNat_add_ofNat (by omega)
  refine h.inside ?_ ?_ <;> omega

/-- A run of stores in the region leaves what is away from it. -/
theorem Region.run_keeps (h : Region D Away lo hi) {p : Word} (hlo : lo ≤ p.toNat)
    (hhi : p.toNat + bs.length ≤ hi) (m : ByteMem) :
    ∀ a, Away a → Access.replay (Access.storeRun p bs) m a = m a := by
  intro a ha
  have hlt := h.lt
  have hoff := (h.away ha).2
  exact Access.replay_storeRun_off (by omega) (by omega)

variable [DecidablePred D] {m : ByteMem} {stack argv newargv p q : Word} {s : List UInt8}
  {ss : List (List UInt8)} {i : Nat}

theorem flatOn_strlenLoop {fuel : Nat} {n : Word} (hs : 0 ∉ s) (h : m.Holds p (s ++ [0]))
    (hD : ∀ k < (s ++ [0]).length, D (p + BitVec.ofNat 64 k)) (hfuel : s.length < fuel) :
    (flatOn D).run (strlenLoop fuel p n) m = some (n + BitVec.ofNat 64 s.length, m) := by
  obtain ⟨fuel, rfl⟩ : ∃ f, fuel = f + 1 := ⟨fuel - 1, by omega⟩
  induction s generalizing p n fuel with
  | nil =>
    have hb := (ByteMem.Holds.cons_iff.mp h).1
    have hp : D p := by simpa using hD 0 (by simp)
    rw [strlenLoop, run_bind, flatOn_loadByte hp, Option.bind_some, if_pos hb, run_pure]
    simp
  | cons b s ih =>
    obtain ⟨hb, hrest⟩ := ByteMem.Holds.cons_iff.mp h
    have hp : D p := by simpa using hD 0 (by simp)
    have hnz : m p ≠ 0 := by
      rw [hb]
      exact fun hz => hs (hz ▸ .head _)
    obtain ⟨fuel, rfl⟩ : ∃ f, fuel = f + 1 := ⟨fuel - 1, by simp at hfuel; omega⟩
    rw [strlenLoop, run_bind, flatOn_loadByte hp, Option.bind_some, if_neg hnz,
      ih (fun hz => hs (.tail _ hz)) hrest (fun k hk => ?_) fuel (by simpa using hfuel),
      List.length_cons, BitVec.add_assoc, Nat.add_comm, BitVec.ofNat_add]
    · rfl
    · rw [add_one_ofNat]
      exact hD (k + 1) (by simpa using hk)

section Region

variable (hreg : Region D Away lo hi)

include hreg

theorem flatOn_strlen (h : StringAt m Away q p s) :
    (flatOn D).run (strlen p) m = some (BitVec.ofNat 64 s.length, m) := by
  obtain ⟨x, hx⟩ := hreg.not_away
  have hlt := h.length_lt hx
  rw [strlen, if_neg h.ne_zero, flatOn_strlenLoop h.chars h.bytes
    (fun k hk => (hreg.away (h.bytes_away k hk)).1) (by omega)]
  simp

theorem flatOn_loadEntry (h : StringAt m Away q p s) : (flatOn D).run (loadWord q) m = some (p, m) :=
  flatOn_loadWord h.entry fun k hk => (hreg.away (h.entry_away k hk)).1

/-- A copy of bytes that are out of the way. -/
theorem flatOn_memcpyLoop (h : m.Holds q bs) (haway : ∀ k < bs.length, Away (q + BitVec.ofNat 64 k))
    (hlo : lo ≤ p.toNat) (hhi : p.toNat + bs.length ≤ hi) :
    (flatOn D).run (memcpyLoop bs.length p q) m =
      some (bs, Access.replay (Access.storeRun p bs) m) := by
  induction bs generalizing p q m with
  | nil => rfl
  | cons b bs ih =>
    obtain ⟨hb, hrest⟩ := ByteMem.Holds.cons_iff.mp h
    have hlt := hreg.lt
    rw [List.length_cons] at hhi haway
    have haway' : ∀ k < bs.length, Away (q + 1 + BitVec.ofNat 64 k) := by
      intro k hk
      rw [add_one_ofNat]
      exact haway (k + 1) (by omega)
    have hq : D q := by simpa using (hreg.away (haway 0 (Nat.succ_pos _))).1
    have hp : D p := hreg.inside hlo (by omega)
    have hrest' : ByteMem.Holds (Function.update m p b) (q + 1) bs := by
      refine hrest.congr fun k hk => Function.update_of_ne ?_ _ _
      intro heq
      have hoff := (hreg.away (haway' k hk)).2
      rw [heq] at hoff
      omega
    have hp' : (p + 1).toNat = p.toNat + 1 := toNat_add_ofNat (k := 1) (by omega)
    simp only [List.length_cons, memcpyLoop, run_bind, flatOn_loadByte hq, hb, Option.bind_some,
      flatOn_storeByte hp, ih hrest' haway' (by rw [hp']; omega) (by rw [hp']; omega), run_pure]
    rfl

theorem flatOn_sizeLoop (stksz : Word) (h : ArgsFrom m Away argv i ss) (hle : stksz.toNat ≤ pageSize) :
    (flatOn D).run (sizeLoop argv ss.length i stksz) m =
      some (if stksz.toNat + totalSize ss ≤ pageSize
        then some (stksz + BitVec.ofNat 64 (totalSize ss)) else none, m) := by
  induction ss generalizing i stksz with
  | nil => simp [sizeLoop, totalSize, hle]
  | cons s ss ih =>
    obtain ⟨p, hat⟩ := h.head
    obtain ⟨x, hx⟩ := hreg.not_away
    have hlen := hat.length_lt hx
    have hps : pageSize = 4096 := rfl
    have hpage : (BitVec.ofNat 64 pageSize).toNat = pageSize := rfl
    have hargsz : (BitVec.ofNat 64 s.length + 1).toNat = s.length + 1 := by
      rw [BitVec.toNat_add, BitVec.toNat_ofNat, show (1 : Word).toNat = 1 from rfl]
      omega
    have htest : BitVec.ofNat 64 pageSize - stksz < BitVec.ofNat 64 s.length + 1 ↔
        pageSize < stksz.toNat + (s.length + 1) := by
      rw [BitVec.lt_def, BitVec.toNat_sub_of_le (by rw [BitVec.le_def]; exact hle), hpage, hargsz]
      omega
    rw [List.length_cons, sizeLoop, run_bind, flatOn_loadEntry hreg hat, Option.bind_some, run_bind,
      flatOn_strlen hreg hat, Option.bind_some, totalSize_cons]
    by_cases hfit : pageSize < stksz.toNat + (s.length + 1)
    · rw [if_pos (htest.mpr hfit), run_pure, if_neg (by omega)]
    · have hsum : (stksz + (BitVec.ofNat 64 s.length + 1)).toNat = stksz.toNat + (s.length + 1) := by
        rw [BitVec.toNat_add, hargsz]
        omega
      rw [if_neg (htest.not.mpr hfit), ih _ h.tail (by rw [hsum]; omega), hsum, Nat.add_assoc]
      congr 3
      rw [BitVec.add_assoc, BitVec.ofNat_add, BitVec.ofNat_add]
      rfl

theorem flatOn_copyLoop (stack newargv p : Word) (h : ArgsFrom m Away argv i ss)
    (hslot : lo ≤ newargv.toNat) (hslots : newargv.toNat + 8 * (i + ss.length) ≤ hi)
    (hp : lo ≤ p.toNat) (hend : p.toNat + totalSize ss ≤ hi) :
    (flatOn D).run (copyLoop stack argv newargv ss.length i p) m =
      some (terminated ss, Access.replay (stackStores stack newargv i p (terminated ss)) m) := by
  induction ss generalizing i p m with
  | nil => rfl
  | cons s ss ih =>
    obtain ⟨src, hat⟩ := h.head
    obtain ⟨x, hx⟩ := hreg.not_away
    have hlen := hat.length_lt hx
    have hlt := hreg.lt
    rw [List.length_cons] at hslots
    rw [totalSize_cons] at hend
    have hblock : (s ++ [0]).length = s.length + 1 := by simp
    have hargsz : BitVec.ofNat 64 s.length + 1 = BitVec.ofNat 64 (s ++ [0]).length := by
      rw [hblock, BitVec.ofNat_add]
      rfl
    have hcount : (BitVec.ofNat 64 s.length + 1).toNat = (s ++ [0]).length := by
      rw [hargsz, BitVec.toNat_ofNat, hblock]
      omega
    let ptr := leBytes (stackTop + (p - stack)).toNat 8
    have hptr : ptr.length = 8 := length_leBytes _ _
    have hslot' : (slot newargv i).toNat = newargv.toNat + 8 * i := toNat_slot (by omega)
    let m1 := Access.replay (Access.storeRun (slot newargv i) ptr) m
    let m2 := Access.replay (Access.storeRun p (s ++ [0])) m1
    have hkeep1 : ∀ a, Away a → m1 a = m a := hreg.run_keeps (by omega) (by omega) m
    have hkeep2 : ∀ a, Away a → m2 a = m1 a := hreg.run_keeps hp (by omega) m1
    have hat1 := hat.congr hkeep1
    have hnext : (p + (BitVec.ofNat 64 s.length + 1)).toNat = p.toNat + (s.length + 1) := by
      rw [hargsz, hblock]
      exact toNat_add_ofNat (by omega)
    have hstore : (flatOn D).run (storeWord (slot newargv i) (stackTop + (p - stack))) m =
        some ((), m1) := flatOn_storeBytes m (hreg.run_inside (by omega) (by rw [length_leBytes]; omega))
    have hcopy : (flatOn D).run (memcpy p src (BitVec.ofNat 64 s.length + 1)) m1 =
        some (s ++ [0], m2) := by
      rw [memcpy, hcount]
      exact flatOn_memcpyLoop hreg hat1.bytes hat1.bytes_away hp (by omega)
    have hrest := ih (p + (BitVec.ofNat 64 s.length + 1))
      (h.tail.congr fun a ha => (hkeep2 a ha).trans (hkeep1 a ha)) (by omega) (by omega) (by omega)
    simp only [List.length_cons, copyLoop, run_bind, hstore, Option.bind_some,
      flatOn_loadEntry hreg hat1, flatOn_strlen hreg hat1, hcopy, hrest, run_pure, terminated,
      List.map_cons, stackStores, ← hargsz, Access.replay_append]
    rfl

end Region

/-- The size that `build_stack` returns for strings that fit. -/
def stackSize (strs : List (List UInt8)) : Nat :=
  (8 * (strs.length + 1) + totalSize strs + 15) / 16 * 16

/-- The end of the page that is needed for the strings, or the whole page when they do not fit. -/
def stackStart (stack : Word) (strs : List (List UInt8)) : Nat :=
  stack.toNat + pageSize - min (stackSize strs) pageSize

/-- `build_stack` with a number of strings that it takes. -/
theorem flatOn_buildStack {strs : List (List UInt8)}
    (hreg : Region D Away (stackStart stack strs) (stack.toNat + pageSize))
    (hargc : argc.toNat = strs.length)
    (hfew : ¬ BitVec.ofNat 64 (pageSize / 8 - 1) < argc.signExtend 64)
    (hargs : ArgsFrom m Away argv 0 strs) :
    ∃ m', (flatOn D).run (buildStack stack argc argv) m =
      some (if 8 * (strs.length + 1) + totalSize strs ≤ pageSize
        then (((stackSize strs : Nat) : Int), terminated strs) else (-ENOMEM, []), m') := by
  have hps : pageSize = 4096 := rfl
  have hstack := hreg.lt
  have hcount := argc_lt hfew
  rw [hargc] at hcount
  have hfirst : (BitVec.ofNat 64 (8 * (strs.length + 1))).toNat = 8 * (strs.length + 1) := by
    rw [BitVec.toNat_ofNat]
    omega
  have hsizes := flatOn_sizeLoop hreg (BitVec.ofNat 64 (8 * (strs.length + 1))) hargs (by omega)
  rw [hfirst, ← BitVec.ofNat_add] at hsizes
  rw [buildStack, if_neg hfew, run_bind, hargc, hsizes, Option.bind_some]
  by_cases hfit : 8 * (strs.length + 1) + totalSize strs ≤ pageSize
  · have hround : 8 * (strs.length + 1) + totalSize strs ≤ stackSize strs ∧
        stackSize strs ≤ pageSize := by
      rw [stackSize]
      omega
    have hstart : stackStart stack strs = stack.toNat + pageSize - stackSize strs := by
      rw [stackStart, Nat.min_eq_left hround.2]
    have hsize : (BitVec.ofNat 64 (8 * (strs.length + 1) + totalSize strs)).toNat =
        8 * (strs.length + 1) + totalSize strs := by
      rw [BitVec.toNat_ofNat]
      omega
    have hstksz := toNat_round (by rw [hsize]; exact hfit)
    rw [hsize] at hstksz
    change _ = stackSize strs at hstksz
    simp only [if_pos hfit]
    generalize (BitVec.ofNat 64 (8 * (strs.length + 1) + totalSize strs) + 15) / 16 * 16 = stksz
      at hstksz ⊢
    have hnew : (stack + BitVec.ofNat 64 pageSize - stksz).toNat =
        stack.toNat + pageSize - stackSize strs := by
      rw [BitVec.toNat_sub, BitVec.toNat_add, BitVec.toNat_ofNat, hstksz]
      omega
    have hpage : stksz ≤ BitVec.ofNat 64 pageSize := by
      rw [BitVec.le_def, hstksz]
      exact hround.2
    have hslot : ∀ j ≤ strs.length + 1, (slot (stack + BitVec.ofNat 64 pageSize - stksz) j).toNat =
        stack.toNat + pageSize - stackSize strs + 8 * j := by
      intro j hj
      rw [toNat_slot (by rw [hnew]; omega), hnew]
    have hslot1 := hslot (strs.length + 1) (Nat.le_refl _)
    have hslot2 := hslot strs.length (Nat.le_succ _)
    have hcopy := flatOn_copyLoop hreg stack (stack + BitVec.ofNat 64 pageSize - stksz)
      (slot (stack + BitVec.ofNat 64 pageSize - stksz) (strs.length + 1)) hargs
      (by omega) (by omega) (by omega) (by omega)
    rw [run_bind, MemProg.assert, if_pos hpage, run_pure, Option.bind_some, run_bind, hcopy,
      Option.bind_some, run_bind, storeWord, flatOn_storeBytes _ (hreg.run_inside (by omega) ?_),
      Option.bind_some, run_pure, hstksz]
    · exact ⟨_, rfl⟩
    · rw [length_leBytes]
      omega
  · rw [if_neg hfit, if_neg hfit]
    exact ⟨m, rfl⟩

end Flat

/-- The test of `argc` is one of its sign and of its size. -/
theorem argc_test :
    BitVec.ofNat 64 (pageSize / 8 - 1) < argc.signExtend 64 ↔ argc.toInt < 0 ∨ 511 < argc.toInt := by
  have hlt := argc.isLt
  have hlimit : (BitVec.ofNat 64 (pageSize / 8 - 1)).toNat = 511 := rfl
  have hmsb : argc.msb = true ↔ 2 ^ 31 ≤ argc.toNat := by
    rw [BitVec.msb_eq_decide, decide_eq_true_iff]
  rw [BitVec.lt_def, BitVec.toNat_signExtend, BitVec.toNat_setWidth, hlimit, BitVec.toInt_eq_toNat_cond]
  by_cases hneg : 2 ^ 31 ≤ argc.toNat
  · rw [if_pos (hmsb.mpr hneg), if_neg (by omega)]
    omega
  · rw [if_neg (hmsb.not.mpr hneg), if_pos (by omega)]
    omega

/-- `build_stack` returns for every count and every list of that many strings that are out of the way
of the part of the page that is needed for them. -/
theorem buildStack_layout (m : ByteMem) (stack argv : Word) (argc : BitVec 32)
    (strs : List (List UInt8)) (hstack : stack.toNat + pageSize < 2 ^ 64)
    (hlen : 0 ≤ argc.toInt → argc.toInt = strs.length)
    (hargs : 0 ≤ argc.toInt → ArgsFrom m
      (fun a => a.toNat < stackStart stack strs ∨ stack.toNat + pageSize ≤ a.toNat) argv 0 strs) :
    ∃ value blocks t m', (buildStack stack argc argv).Does t (value, blocks) ∧
      flat.steps m t = some m' ∧
      ((argc.toInt < 0 ∨ 511 < argc.toInt ∨ pageSize < 8 * (strs.length + 1) + totalSize strs) →
        value = -ENOMEM ∧ Reads t) ∧
      (¬ (argc.toInt < 0 ∨ 511 < argc.toInt ∨ pageSize < 8 * (strs.length + 1) + totalSize strs) →
        ∃ stksz : Nat, value = stksz ∧ stksz % 16 = 0 ∧ 16 ≤ stksz ∧ stksz ≤ pageSize ∧
          (∀ a b, Access.store a b ∈ t →
            stack.toNat + pageSize - stksz ≤ a.toNat ∧ a.toNat < stack.toNat + pageSize) ∧
          m'.Holds (stack + BitVec.ofNat 64 (pageSize - stksz + 8 * strs.length)) (leBytes 0 8) ∧
          ∃ v : Nat → Nat, ∀ i s, strs[i]? = some s →
            m'.Holds (stack + BitVec.ofNat 64 (pageSize - stksz + 8 * i)) (leBytes (v i) 8) ∧
            umemEnd - stksz + 8 * (strs.length + 1) ≤ v i ∧ v i + (s.length + 1) ≤ umemEnd ∧
            m'.Holds (stack + BitVec.ofNat 64 (v i - (umemEnd - pageSize))) (s ++ [0]) ∧
            ∀ j s', strs[j]? = some s' → i < j → v i + (s.length + 1) ≤ v j) := by
  have hps : pageSize = 4096 := rfl
  have hend : umemEnd = 0xF0000000 := rfl
  by_cases htest : argc.toInt < 0 ∨ 511 < argc.toInt
  · -- the count is refused and nothing is read
    refine ⟨-ENOMEM, [], [], m, ?_, rfl, fun _ => ⟨rfl, rfl⟩, fun hnot => absurd ?_ hnot⟩
    · rw [buildStack, if_pos (argc_test.mpr htest)]
      exact .pure _
    · exact htest.imp_right .inl
  have hfew := argc_test.not.mpr htest
  have hpos : 0 ≤ argc.toInt := by omega
  have hcount : argc.toNat = strs.length := by
    have hlt := argc.isLt
    have hargc := hlen hpos
    rw [BitVec.toInt_eq_toNat_cond] at hpos hargc
    split at hargc <;> omega
  have hreg : Region (fun _ => True)
      (fun a : Word => a.toNat < stackStart stack strs ∨ stack.toNat + pageSize ≤ a.toNat)
      (stackStart stack strs) (stack.toNat + pageSize) := by
    refine ⟨fun ha => ⟨trivial, ha⟩, fun _ _ => trivial, ?_, hstack⟩
    rw [stackStart, stackSize]
    omega
  obtain ⟨m', hrun⟩ := flatOn_buildStack hreg hcount hfew (hargs hpos)
  obtain ⟨t, hdoes, hsteps⟩ := run_eq_some.mp hrun
  obtain rfl := flatOn_steps hsteps
  by_cases hfit : 8 * (strs.length + 1) + totalSize strs ≤ pageSize
  · rw [if_pos hfit] at hdoes
    refine ⟨_, _, t, _, hdoes, hsteps, fun hcond => by omega, fun _ => ?_⟩
    rcases does_buildStack hdoes with ⟨hbad, -⟩ | ⟨stksz, hvalue, hmod, hlow, hhigh, -, hblocks, hstores⟩
    · exact absurd hbad (by rw [ENOMEM]; omega)
    have hstksz : stackSize strs = stksz := by exact_mod_cast hvalue
    rw [hcount] at hlow hblocks hstores
    have hroom : 8 * (strs.length + 1) + (terminated strs).flatten.length ≤ stksz := by
      rw [length_terminated, ← hstksz, stackSize]
      omega
    obtain ⟨hlayout, -⟩ := layout_of_stores (m := m) hstack hhigh hblocks hroom hstores
    refine ⟨stksz, hvalue, hmod, by omega, hhigh, fun a b hab => ?_, hlayout.null,
      fun i => umemEnd - pageSize + blockOffset stksz strs.length (terminated strs) i, fun i s hs => ?_⟩
    · refine mem_pageStores hstack hhigh hblocks hroom (c := b) ?_
      rw [← hstores]
      exact List.mem_filter.mpr ⟨hab, rfl⟩
    · have hblock : ∀ {j : Nat} {s'}, strs[j]? = some s' →
          (terminated strs)[j]? = some (s' ++ [0]) := by
        intro j s' hs'
        rw [terminated, List.getElem?_map, hs']
        rfl
      have hlength : (s ++ [0]).length = s.length + 1 := by simp
      have hnext : ∀ {j : Nat}, i < j → blockOffset stksz strs.length (terminated strs) i + (s.length + 1) ≤
          blockOffset stksz strs.length (terminated strs) j := by
        intro j hij
        have hle := length_take_add_le (hblock hs) hij
        rw [blockOffset, blockOffset]
        omega
      dsimp only
      refine ⟨hlayout.pointer i _ (hblock hs), ?_, ?_, ?_, fun j s' _ hij => ?_⟩
      · rw [blockOffset]
        omega
      · have hall : (terminated strs).take (i + strs.length + 1) = terminated strs :=
          List.take_of_length_le (by rw [hblocks]; omega)
        have hle := length_take_add_le (hblock hs) (show i < i + strs.length + 1 by omega)
        rw [hall] at hle
        rw [blockOffset]
        omega
      · rw [Nat.add_sub_cancel_left]
        exact hlayout.block i _ (hblock hs)
      · have hle := hnext hij
        omega
  · rw [if_neg hfit] at hdoes
    refine ⟨_, _, t, _, hdoes, hsteps, fun _ => ⟨rfl, ?_⟩, fun hcond => by omega⟩
    rcases does_buildStack hdoes with ⟨-, -, hreads⟩ | ⟨stksz, hvalue, -⟩
    · exact hreads
    · exact absurd hvalue (by rw [ENOMEM]; omega)

/-- A vector at 0x1000 with one pointer, to the string at 0x2000. -/
def oneArg : ByteMem := fun a => if a = 0x1001 then 0x20 else if a = 0x2000 then 'a'.toUInt8 else 0

/-- The string is found through the vector at the end of the page. -/
theorem buildStack_oneArg :
    ∃ (stksz : Nat) (blocks : List (List UInt8)) (t : List Access) (m' : ByteMem),
      (buildStack stackTop 1 0x1000).Does t ((stksz : Int), blocks) ∧
      flat.steps oneArg t = some m' ∧
      ∃ v, m'.Holds (stackTop + BitVec.ofNat 64 (pageSize - stksz)) (leBytes v 8) ∧
        m'.Holds (stackTop + BitVec.ofNat 64 (v - (umemEnd - pageSize))) ['a'.toUInt8, 0] := by
  have hentry : oneArg.Holds (slot 0x1000 0) (leBytes (0x2000 : Word).toNat 8) := by
    intro i b hb
    have hi := (List.getElem?_eq_some_iff.mp hb).1
    rw [length_leBytes] at hi
    interval_cases i <;> cases hb <;> decide
  have hbytes : oneArg.Holds 0x2000 (['a'.toUInt8] ++ [0]) := by
    intro i b hb
    have hi := (List.getElem?_eq_some_iff.mp hb).1
    change i < 2 at hi
    interval_cases i <;> cases hb <;> decide
  have hargs : ArgsFrom oneArg
      (fun a => a.toNat < stackStart stackTop [['a'.toUInt8]] ∨ stackTop.toNat + pageSize ≤ a.toNat)
      0x1000 0 [['a'.toUInt8]] := by
    intro j s hs
    have hj := (List.getElem?_eq_some_iff.mp hs).1
    obtain rfl : j = 0 := by simpa using hj
    cases hs
    refine ⟨0x2000, hentry, ?_, by decide, by decide, hbytes, ?_⟩
    · decide
    · decide
  obtain ⟨value, blocks, t, m', hdoes, hsteps, -, hok⟩ := buildStack_layout oneArg stackTop 0x1000 1
    [['a'.toUInt8]] (by decide) (fun _ => by decide) fun _ => hargs
  obtain ⟨stksz, rfl, -, -, -, -, -, v, hv⟩ := hok (by decide)
  obtain ⟨hptr, -, -, hstr, -⟩ := hv 0 _ rfl
  exact ⟨stksz, blocks, t, m', hdoes, hsteps, v 0, hptr, hstr⟩

end MiniOs.Stack
