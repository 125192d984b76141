import MiniOs.Base.Runs
import MiniOs.Cache.Faults

/-!
# Held blocks stay where they are

A slot that `cache_get_block` has handed out is not reused before the last release, whatever the
device does.  `Pins` is a cache with the outstanding gets, one list entry for each.  The counts of the
entries are the counts of that list, so `pick_victim` fails exactly when every slot is held.
-/

namespace MiniOs

/-- A cache, and the slots of the gets that are not released. -/
structure Pins (σ : Type) where
  cache : Cache σ
  gets : List Slot

/-- A call. -/
inductive PinOp where
  | get (pos : Nat)
  | release (i : Slot) (flag : ReleaseFlag)
  | flush

namespace Pins

variable {σ : Type} {d : Device σ} {s : Pins σ} {c : Cache σ} {i : Slot} {pos : Nat}

/-- The state after a call.  A get is outstanding when it has handed out a slot. -/
def step (d : Device σ) (s : Pins σ) : PinOp → Pins σ
  | .get pos => ⟨(s.cache.getBlock d pos).2.2, (s.cache.getBlock d pos).2.1.toList ++ s.gets⟩
  | .release i flag => ⟨s.cache.releaseBlock i flag, s.gets.erase i⟩
  | .flush => ⟨(s.cache.flush d).2, s.gets⟩

/-- A release is of a slot that is held. -/
def Matched (s : Pins σ) (op : PinOp) : Prop := ∀ i flag, op = .release i flag → i ∈ s.gets

/-- No two valid entries share a position, counts are those of the outstanding gets, and a held slot
is valid. -/
structure Pinned (s : Pins σ) : Prop where
  uniq : ∀ {i j}, (s.cache.ents i).valid = true → (s.cache.ents j).valid = true →
    (s.cache.ents i).pos = (s.cache.ents j).pos → i = j
  refs : ∀ i, (s.cache.ents i).refcnt = s.gets.count i
  valid : ∀ {i}, i ∈ s.gets → (s.cache.ents i).valid = true

/-- The slots held in `s` are valid at the same positions in `c`. -/
def Keeps (s : Pins σ) (c : Cache σ) : Prop :=
  ∀ i ∈ s.gets, (c.ents i).valid = true ∧ (c.ents i).pos = (s.cache.ents i).pos

/-! ## Steps -/

section

variable (h : Pinned s)

include h

/-- Nothing but data and dirty flags changes. -/
theorem Pinned.of_same (hpos : ∀ i, (c.ents i).pos = (s.cache.ents i).pos)
    (hvalid : ∀ i, (c.ents i).valid = (s.cache.ents i).valid)
    (hrefs : ∀ i, (c.ents i).refcnt = (s.cache.ents i).refcnt) :
    Pinned ⟨c, s.gets⟩ ∧ s.Keeps c := by
  refine ⟨⟨fun {i j} hi hj hij => ?_, fun i => ?_, fun {i} hi => ?_⟩, fun i hi => ⟨?_, hpos i⟩⟩
  · rw [hvalid] at hi hj
    rw [hpos, hpos] at hij
    exact h.uniq hi hj hij
  · rw [hrefs]
    exact h.refs i
  · rw [hvalid]
    exact h.valid hi
  · rw [hvalid]
    exact h.valid hi

theorem Pinned.of_cleaned (hc : Cache.Cleaned s.cache c) :
    Pinned ⟨c, s.gets⟩ ∧ s.Keeps c := h.of_same hc.pos hc.valid hc.refcnt

/-- A victim is not held. -/
theorem Pinned.victim (hp : s.cache.pickVictim = some i) : i ∉ s.gets := by
  intro hi
  rcases Cache.pickVictim_some hp with hv | hr
  · exact absurd ((h.valid hi).symm.trans hv) (by simp)
  · rw [h.refs, List.count_eq_zero] at hr
    exact hr hi

/-- A slot that is not held takes a block that no entry has. -/
theorem Pinned.fill (hi : i ∉ s.gets) {data : Blk}
    (hmiss : ∀ j, (s.cache.ents j).valid = true → (s.cache.ents j).pos ≠ pos)
    (hc : ∀ j, (c.ents j).pos = (s.cache.ents j).pos ∧ (c.ents j).valid = (s.cache.ents j).valid ∧
      (c.ents j).refcnt = (s.cache.ents j).refcnt) :
    Pinned ⟨c.setEnt i (Cache.fresh pos data), i :: s.gets⟩ ∧
      s.Keeps (c.setEnt i (Cache.fresh pos data)) := by
  have hother : ∀ j, j ≠ i → ((c.setEnt i (Cache.fresh pos data)).ents j) = c.ents j :=
    fun j hj => by simp [hj]
  have hself : (c.setEnt i (Cache.fresh pos data)).ents i = Cache.fresh pos data := by simp
  have hne : ∀ {j}, j ∈ s.gets → j ≠ i := fun hj he => hi (he ▸ hj)
  refine ⟨⟨fun {j k} hj hk hjk => ?_, fun j => ?_, fun {j} hj => ?_⟩, fun j hj => ?_⟩
  · by_cases hji : j = i <;> by_cases hki : k = i
    · rw [hji, hki]
    · subst hji
      rw [hother k hki, (hc k).2.1] at hk
      rw [hself, hother k hki, (hc k).1] at hjk
      exact absurd hjk.symm (hmiss k hk)
    · subst hki
      rw [hother j hji, (hc j).2.1] at hj
      rw [hself, hother j hji, (hc j).1] at hjk
      exact absurd hjk (hmiss j hj)
    · rw [hother j hji, (hc j).2.1] at hj
      rw [hother k hki, (hc k).2.1] at hk
      rw [hother j hji, hother k hki, (hc j).1, (hc k).1] at hjk
      exact h.uniq hj hk hjk
  · by_cases hji : j = i
    · subst hji
      rw [hself, List.count_cons_self, List.count_eq_zero.mpr hi]
      rfl
    · rw [hother j hji, (hc j).2.2, h.refs, List.count_cons_of_ne (Ne.symm hji)]
  · rcases List.mem_cons.mp hj with rfl | hj
    · rw [hself]
      rfl
    · rw [hother j (hne hj), (hc j).2.1]
      exact h.valid hj
  · rw [hother j (hne hj), (hc j).1, (hc j).2.1]
    exact ⟨h.valid hj, rfl⟩

/-- The count of a valid entry, and its dirty flag, change with the outstanding gets. -/
theorem Pinned.retag (hv : (s.cache.ents i).valid = true) {gets : List Slot} {dirty : Bool}
    {r : Nat} (hi : gets.count i = r) (hother : ∀ j, j ≠ i → gets.count j = s.gets.count j) :
    Pinned ⟨s.cache.setEnt i { s.cache.ents i with dirty, refcnt := r }, gets⟩ ∧
      s.Keeps (s.cache.setEnt i { s.cache.ents i with dirty, refcnt := r }) := by
  generalize hc : s.cache.setEnt i { s.cache.ents i with dirty, refcnt := r } = c
  have hsame : ∀ j, (c.ents j).pos = (s.cache.ents j).pos ∧
      (c.ents j).valid = (s.cache.ents j).valid := by
    intro j
    by_cases hj : j = i <;> simp [← hc, hj]
  refine ⟨⟨fun {j k} hj hk hjk => ?_, fun j => ?_, fun {j} hj => ?_⟩, fun j hj => ?_⟩
  · rw [(hsame j).2] at hj
    rw [(hsame k).2] at hk
    rw [(hsame j).1, (hsame k).1] at hjk
    exact h.uniq hj hk hjk
  · by_cases hji : j = i
    · subst hji
      simp [← hc, hi]
    · rw [← hc, Cache.setEnt_ents, if_neg hji, h.refs, hother j hji]
  · rw [(hsame j).2]
    by_cases hji : j = i
    · exact hji ▸ hv
    · exact h.valid (List.count_pos_iff.mp (hother j hji ▸ List.count_pos_iff.mpr hj))
  · rw [(hsame j).1, (hsame j).2]
    exact ⟨h.valid hj, rfl⟩

theorem Pinned.get (d : Device σ) (pos : Nat) :
    Pinned (step d s (.get pos)) ∧ s.Keeps (step d s (.get pos)).cache := by
  rw [step]
  rcases hget : s.cache.getBlock d pos with ⟨rc, p, c'⟩
  cases Cache.getBlock_cases hget with
  | misaligned => exact h.of_cleaned (.refl _)
  | @hit i _ hf =>
    refine h.retag (Cache.findEntry_some hf).1 ?_ fun j hj => ?_
    · rw [h.refs]
      exact List.count_cons_self
    · exact List.count_cons_of_ne (Ne.symm hj)
  | held => exact h.of_cleaned (.refl _)
  | @stuck i _ c1 _ _ _ hw _ =>
    exact h.of_cleaned (Cache.cleaned_writeback hw)
  | @unread i c1 n data dev _ _ _ hw _ _ =>
    have hcl := Cache.cleaned_writeback hw
    refine h.of_same (fun j => ?_) (fun j => ?_) fun j => ?_ <;>
      by_cases hj : j = i <;> simp [hj, hcl.pos, hcl.valid, hcl.refcnt]
  | @filled i c1 data dev _ hf hp hw _ =>
    have hcl := Cache.cleaned_writeback hw
    exact h.fill (h.victim hp) (Cache.findEntry_none hf)
      fun j => ⟨hcl.pos j, hcl.valid j, hcl.refcnt j⟩

theorem Pinned.release (hi : i ∈ s.gets) (flag : ReleaseFlag) :
    Pinned (step d s (.release i flag)) ∧ s.Keeps (step d s (.release i flag)).cache := by
  have hpos : 0 < (s.cache.ents i).refcnt := by
    rw [h.refs]
    exact List.count_pos_iff.mpr hi
  have heq : s.cache.releaseBlock i flag = s.cache.setEnt i { s.cache.ents i with
      dirty := if flag = .dirty then true else (s.cache.ents i).dirty
      refcnt := (s.cache.ents i).refcnt - 1 } := by
    simp [Cache.releaseBlock, h.valid hi, hpos]
  rw [step, heq]
  refine h.retag (h.valid hi) ?_ fun j hj => ?_
  · rw [List.count_erase_self, h.refs]
  · exact List.count_erase_of_ne hj

theorem Pinned.step {op : PinOp} (hop : Matched s op) :
    Pinned (step d s op) ∧ s.Keeps (Pins.step d s op).cache := by
  cases op with
  | get pos => exact h.get d pos
  | release i flag => exact h.release (hop i flag rfl) flag
  | flush => exact h.of_cleaned (Cache.flushLoop_keeps
      (fun _ hcl hw => hcl.trans (Cache.cleaned_writeback hw)) (.refl _))

end

theorem pinned_create (dev : σ) : Pinned ⟨Cache.create dev, []⟩ :=
  ⟨fun h => absurd h (by simp [Cache.create]), fun _ => rfl, fun h => absurd h List.not_mem_nil⟩

/-- From an empty cache, calls whose releases match keep everything pinned. -/
theorem Pinned.run {ops : List PinOp} :
    ∀ {s : Pins σ}, Pinned s → Along (Pins.step d) Matched s ops →
      Pinned (ops.foldl (Pins.step d) s) := by
  induction ops with
  | nil => exact fun h _ => h
  | cons op ops ih => exact fun h hops => ih (h.step hops.1).1 hops.2

/-! ## Victims -/

/-- There is no victim when every slot is valid and held. -/
theorem Pinned.pickVictim_none_iff (h : Pinned s) :
    s.cache.pickVictim = none ↔ ∀ i, (s.cache.ents i).valid = true ∧ i ∈ s.gets := by
  constructor
  · intro hp i
    have hi : i ∈ s.gets := by
      by_contra hi
      obtain ⟨j, hj⟩ := Cache.pickVictim_isSome (c := s.cache) (i := i)
        (by rw [h.refs, List.count_eq_zero.mpr hi])
      cases hp.symm.trans hj
    exact ⟨h.valid hi, hi⟩
  · intro hall
    cases hp : s.cache.pickVictim with
    | none => rfl
    | some i => exact absurd (hall i).2 (h.victim hp)

/-- Fewer than `CACHE_NENT` outstanding gets leave a victim. -/
theorem Pinned.exists_victim (h : Pinned s) (hlen : s.gets.length < cacheNent) :
    ∃ i, s.cache.pickVictim = some i := by
  rw [← Option.ne_none_iff_exists']
  intro hp
  have hall := h.pickVictim_none_iff.mp hp
  have hcard : Fintype.card Slot ≤ s.gets.toFinset.card :=
    Finset.card_le_card fun i _ => List.mem_toFinset.mpr (hall i).2
  rw [Fintype.card_fin] at hcard
  have := List.toFinset_card_le s.gets
  omega

/-- A device whose transfers are all whole. -/
structure Whole (d : Device σ) : Prop where
  readat : ∀ st pos buf, (d.readat st pos buf).1 = 512
  writeat : ∀ st pos data, (d.writeat st pos data).1 = 512

/-- With whole transfers a get of an aligned position hands out a slot for it as long as there is a
victim. -/
theorem Pinned.get_whole (h : Pinned s) (hd : Whole d) (hal : pos % blksz = 0)
    (hlen : s.gets.length < cacheNent) :
    ∃ i c, s.cache.getBlock d pos = (0, some i, c) ∧ (c.ents i).pos = pos := by
  rcases hget : s.cache.getBlock d pos with ⟨rc, p, c'⟩
  cases Cache.getBlock_cases hget with
  | misaligned hne => exact absurd hal hne
  | @hit i _ hf => exact ⟨i, _, rfl, by simp [(Cache.findEntry_some hf).2]⟩
  | held _ _ hp =>
    obtain ⟨i, hi⟩ := h.exists_victim hlen
    cases hp.symm.trans hi
  | @stuck i rc c1 _ _ _ hw hrc =>
    cases Cache.writeback_cases hw with
    | clean => exact absurd rfl hrc
    | short _ _ hwrite hn =>
      have := hd.writeat s.cache.dev (s.cache.ents i).pos (s.cache.ents i).data
      rw [hwrite] at this
      exact absurd this hn
    | whole => exact absurd rfl hrc
  | @unread i c1 n data dev _ _ _ _ hr hn =>
    have := hd.readat c1.dev pos (c1.ents i).data
    rw [hr] at this
    exact absurd this hn
  | @filled i c1 data dev _ _ _ _ hr => exact ⟨i, _, rfl, by simp [Cache.fresh]⟩

/-- The positions of the outstanding gets. -/
def positions (s : Pins σ) : List Nat := s.gets.map fun i => (s.cache.ents i).pos

/-- Gets of new positions are all held at once, up to `CACHE_NENT` of them. -/
theorem Pinned.get_all (hd : Whole d) {ps : List Nat} :
    ∀ {s : Pins σ}, Pinned s → (∀ p ∈ ps, p % blksz = 0) → s.gets.length + ps.length ≤ cacheNent →
      positions ((ps.map .get).foldl (Pins.step d) s) = ps.reverse ++ positions s := by
  induction ps with
  | nil => exact fun _ _ _ => rfl
  | cons p ps ih =>
    intro s h hal hlen
    rw [List.length_cons] at hlen
    obtain ⟨i, c, hget, hpos⟩ := h.get_whole hd (hal p List.mem_cons_self) (by omega)
    have hstep := h.get d p
    have heq : Pins.step d s (.get p) = ⟨c, i :: s.gets⟩ := by
      rw [Pins.step, hget]
      rfl
    rw [heq] at hstep
    rw [List.map_cons, List.foldl_cons, heq,
      ih hstep.1 (fun q hq => hal q (List.mem_cons_of_mem p hq)) (by rw [List.length_cons]; omega)]
    have hkeep : positions ⟨c, i :: s.gets⟩ = p :: positions s := by
      rw [positions, List.map_cons, hpos, positions]
      congr 1
      exact List.map_congr_left fun j hj => (hstep.2 j hj).2
    rw [hkeep, List.reverse_cons, List.append_assoc]
    rfl

/-- Whatever the device does, in every state that calls with matching releases reach: no two valid
entries share a position, counts are those of the outstanding gets, held slots keep their positions,
a miss lacks a victim exactly when every slot is valid and held, and where transfers are whole, as
many blocks as there are slots can be held at once. -/
theorem pinning (d : Device σ) (dev : σ) (ops : List PinOp)
    (hops : Along (step d) Matched ⟨Cache.create dev, []⟩ ops) :
    let s := ops.foldl (step d) ⟨Cache.create dev, []⟩
    (∀ i j, (s.cache.ents i).valid = true → (s.cache.ents j).valid = true →
      (s.cache.ents i).pos = (s.cache.ents j).pos → i = j) ∧
    (∀ i, (s.cache.ents i).refcnt = s.gets.count i) ∧
    (∀ op, Matched s op → s.Keeps (step d s op).cache) ∧
    (∀ pos, pos % blksz = 0 → s.cache.findEntry pos = none →
      (s.cache.pickVictim = none ↔ ∀ i, (s.cache.ents i).valid = true ∧ i ∈ s.gets) ∧
      (s.cache.pickVictim = none → s.cache.getBlock d pos = (-ENOMEM, none, s.cache))) ∧
    (Whole d → ∀ ps : List Nat, (∀ p ∈ ps, p % blksz = 0) → s.gets.length + ps.length ≤ cacheNent →
      positions ((ps.map .get).foldl (step d) s) = ps.reverse ++ positions s) := by
  have h := (pinned_create dev).run hops
  refine ⟨fun i j => h.uniq, h.refs, fun op hop => (h.step hop).2, fun pos hal hf => ?_,
    fun hd ps hal hlen => h.get_all hd hal hlen⟩
  refine ⟨h.pickVictim_none_iff, fun hp => ?_⟩
  simp [Cache.getBlock, hal, hf, hp]

theorem pinning_ramDisk :
    ([PinOp.get 0, .get 0, .release 0 .clean].foldl (step (ramDisk 1))
      ⟨Cache.create fun _ => Block.zero, []⟩).gets = [0] ∧
    ∀ i, (([PinOp.get 0, .get 0, .release 0 .clean].foldl (step (ramDisk 1))
        ⟨Cache.create fun _ => Block.zero, []⟩).cache.ents i).refcnt = [0].count i := by
  have hmatched : Along (step (ramDisk 1)) Matched ⟨Cache.create fun _ => Block.zero, []⟩
      [.get 0, .get 0, .release 0 .clean] := by
    refine ⟨(fun _ _ h => by cases h), (fun _ _ h => by cases h), (fun i flag h => ?_), trivial⟩
    cases h
    decide +kernel
  have hgets : ([PinOp.get 0, .get 0, .release 0 .clean].foldl (step (ramDisk 1))
      ⟨Cache.create fun _ => Block.zero, []⟩).gets = [0] := by decide +kernel
  exact ⟨hgets, fun i => hgets ▸ (pinning (ramDisk 1) _ _ hmatched).2.1 i⟩

end Pins

end MiniOs
