import MiniOs.Proc.Descriptors

/-!
# The slots of a pipe

`syspipe` takes a slot for the writer and then one for the reader.  Each end has a request, for a slot
or for any.  The reader's slot is looked for beside the writer's, but the writer's own is the first
free one, also when that is the slot asked for the reader.  So the call can fail although the requests
can be met: `pipe_slots_iff` says exactly when.
-/

namespace MiniOs.IoSys

variable {s : IoSys} {p : Fin nproc} {fd wfd rfd : Int} {i : Fin processIomax}
  {other : Option (Fin processIomax)}

/-- Slot `i` meets a request: it is free, and it is the one asked for unless any will do. -/
def Suits (s : IoSys) (p : Fin nproc) (fd : Int) (i : Fin processIomax) : Prop :=
  s.slot p i = none ∧ (fd < 0 ∨ fd = i.val)

/-- Two slots meet the requests for the two ends. -/
def Assigns (s : IoSys) (p : Fin nproc) (wfd rfd : Int) (w r : Fin processIomax) : Prop :=
  s.Suits p wfd w ∧ s.Suits p rfd r ∧ w ≠ r

/-- `syspipe` returns 0 with the ends of a new pipe in slots `w` and `r`, and nothing else changed in
the tables. -/
def PutAt (s : IoSys) (p : Fin nproc) (wfd rfd : Int) (w r : Fin processIomax) : Prop :=
  ∃ s', s.syspipe p (some (wfd, rfd)) true = (0, some ((w.val : Int), (r.val : Int)), s') ∧
    s'.slot p w = some s.createPipe.1 ∧ s'.slot p r = some s.createPipe.2.1 ∧
    ∀ q i, (q = p → i ≠ w ∧ i ≠ r) → s'.slot q i = s.slot q i

/-- Requests that can be met are met, and otherwise nothing changes. -/
def PipeMet (s : IoSys) (p : Fin nproc) (wfd rfd : Int) : Prop :=
  ((∃ w r, s.Assigns p wfd rfd w r) → ∃ w r, s.Assigns p wfd rfd w r ∧ s.PutAt p wfd rfd w r) ∧
  ((¬ ∃ w r, s.Assigns p wfd rfd w r) →
    ∃ rc < 0, s.syspipe p (some (wfd, rfd)) true = (rc, none, s))

/-! ## The search -/

theorem validFd_eq_some : validFd fd = some i ↔ fd = i.val := by
  rw [validFd]
  split
  · rw [Option.some_inj, Fin.ext_iff]
    dsimp only
    omega
  · have := i.isLt
    exact iff_of_false (by simp) (by omega)

theorem pipeSlot_ok (h : s.pipeSlot p fd other = .ok i) :
    s.Suits p fd i ∧ (fd < 0 → some i ≠ other) := by
  rw [pipeSlot] at h
  split at h
  · rename_i hneg
    split at h
    · cases h
    · rename_i hf
      cases h
      have := List.find?_some hf
      rw [Bool.and_eq_true, decide_eq_true_eq, Option.isNone_iff_eq_none] at this
      exact ⟨⟨this.2, .inl hneg⟩, fun _ => this.1⟩
  · rename_i hnn
    split at h
    · cases h
    · rename_i hv
      split at h
      · cases h
      · rename_i hfree
        cases h
        refine ⟨⟨?_, .inr (validFd_eq_some.mp hv)⟩, fun hneg => absurd hneg hnn⟩
        simpa using hfree

theorem pipeSlot_error {rc : Int} (h : s.pipeSlot p fd other = .error rc) :
    rc < 0 ∧ ∀ i, s.Suits p fd i → fd < 0 ∧ some i = other := by
  rw [pipeSlot] at h
  split at h
  · rename_i hneg
    split at h
    · rename_i hf
      cases h
      refine ⟨by decide, fun i hi => ⟨hneg, ?_⟩⟩
      have := List.find?_eq_none.mp hf i (List.mem_finRange i)
      simpa [hi.1] using this
    · cases h
  · rename_i hnn
    split at h
    · rename_i hv
      cases h
      refine ⟨by decide, fun i hi => ?_⟩
      have hfd := hi.2.resolve_left hnn
      exact absurd (validFd_eq_some.mpr hfd) (by simp [hv])
    · rename_i j hv
      split at h
      · rename_i hfull
        cases h
        refine ⟨by decide, fun i hi => ?_⟩
        have hfd := hi.2.resolve_left hnn
        have hij : j = i := Option.some_inj.mp (hv.symm.trans (validFd_eq_some.mpr hfd))
        rw [hij, hi.1] at hfull
        cases hfull
      · cases h

theorem pipeSlot_automatic (hneg : fd < 0) (h : s.pipeSlot p fd none = .ok i) :
    s.findFreeFd p = some i := by
  rw [pipeSlot, if_pos hneg] at h
  rw [findFreeFd]
  simp only [ne_eq, reduceCtorEq, not_false_eq_true, decide_true, Bool.true_and] at h
  split at h
  · cases h
  · rename_i hf
    cases h
    exact hf

/-! ## The pipe -/

theorem slot_setSlot (hp : (s.proctab p).isSome = true) (fd : Fin processIomax) (v : Option IoObj)
    (q : Fin nproc) (i : Fin processIomax) :
    (s.setSlot p fd v).slot q i = if q = p ∧ i = fd then v else s.slot q i := by
  obtain ⟨tab, htab⟩ := Option.isSome_iff_exists.mp hp
  by_cases hq : q = p
  · subst hq
    by_cases hi : i = fd <;> simp [setSlot, slot, htab, hi]
  · simp [setSlot, slot, hq]

/-- The two ends are put into the slots that were found. -/
theorem putAt_of_found (hp : (s.proctab p).isSome = true) {w r : Fin processIomax}
    (hw : s.pipeSlot p wfd none = .ok w) (hr : s.pipeSlot p rfd (some w) = .ok r) (hne : w ≠ r) :
    s.PutAt p wfd rfd w r := by
  have hp' : (s.createPipe.2.2.proctab p).isSome = true := hp
  have hp'' : ((s.createPipe.2.2.setSlot p w (some s.createPipe.1)).proctab p).isSome = true := by
    obtain ⟨tab, htab⟩ := Option.isSome_iff_exists.mp hp'
    simp [setSlot, htab]
  refine ⟨(s.createPipe.2.2.setSlot p w (some s.createPipe.1)).setSlot p r (some s.createPipe.2.1),
    ?_, ?_, ?_, fun q i hqi => ?_⟩
  · simp [syspipe, hw, hr, hne]
  · rw [slot_setSlot hp'', if_neg (by simp [hne]), slot_setSlot hp', if_pos ⟨rfl, rfl⟩]
  · rw [slot_setSlot hp'', if_pos ⟨rfl, rfl⟩]
  · rw [slot_setSlot hp'', if_neg fun h => (hqi h.1).2 h.2, slot_setSlot hp',
      if_neg fun h => (hqi h.1).1 h.2]
    rfl

/-- The slot asked for the reader is the first free one, which the writer takes although another one is
free. -/
def WriterTakes (s : IoSys) (p : Fin nproc) (wfd rfd : Int) : Prop :=
  wfd < 0 ∧ ∃ r i, s.findFreeFd p = some r ∧ rfd = (r.val : Int) ∧ i ≠ r ∧ s.slot p i = none

/-- What is wrong with the calls that find one slot for both ends. -/
theorem pipe_slots_iff_of_same {w : Fin processIomax} (hw : s.pipeSlot p wfd none = .ok w)
    (hr : s.pipeSlot p rfd (some w) = .ok w) : s.PipeMet p wfd rfd ↔ ¬ s.WriterTakes p wfd rfd := by
  obtain ⟨hsw, -⟩ := pipeSlot_ok hw
  obtain ⟨hsr, hne⟩ := pipeSlot_ok hr
  have hrfd : rfd = w.val := hsr.2.resolve_left fun hneg => hne hneg rfl
  have hcall : s.syspipe p (some (wfd, rfd)) true = (-EBADFD, none, s) := by simp [syspipe, hw, hr]
  have hlast : ∀ {w' r'}, s.Assigns p wfd rfd w' r' → r' = w := by
    intro w' r' h
    have := h.2.1.2.resolve_left (by omega)
    exact Fin.ext (by omega)
  by_cases htakes : s.WriterTakes p wfd rfd
  · refine iff_of_false (fun h => ?_) (not_not_intro htakes)
    obtain ⟨hneg, r, i, -, hri, hir, hfree⟩ := htakes
    have hrw : r = w := Fin.ext (by omega)
    obtain ⟨_, _, -, _, hput, -⟩ := h.1 ⟨i, w, ⟨hfree, .inl hneg⟩, hsr, hrw ▸ hir⟩
    rw [hcall] at hput
    cases hput
  · refine iff_of_true ⟨fun ⟨w', r', h⟩ => ?_, fun _ => ⟨_, by decide, hcall⟩⟩ htakes
    exfalso
    have hr' := hlast h
    rcases h.1.2 with hneg | hwfd
    · exact htakes ⟨hneg, w, w', pipeSlot_automatic hneg hw, hrfd, hr' ▸ h.2.2, h.1.1⟩
    · have hwfd' := hsw.2.resolve_left (by omega)
      exact h.2.2 (hr' ▸ Fin.ext (by omega))

/-- For every table and every two requests, `syspipe` meets those that can be met and leaves
everything as it is on the others, exactly unless the writer takes the slot asked for the reader. -/
theorem pipe_slots_iff (hp : (s.proctab p).isSome = true) (wfd rfd : Int) :
    s.PipeMet p wfd rfd ↔ ¬ s.WriterTakes p wfd rfd := by
  cases hw : s.pipeSlot p wfd none with
  | error rc =>
    obtain ⟨hrc, hnone⟩ := pipeSlot_error hw
    have hcall : s.syspipe p (some (wfd, rfd)) true = (rc, none, s) := by simp [syspipe, hw]
    refine iff_of_true ⟨fun ⟨w, _, h⟩ => ?_, fun _ => ⟨rc, hrc, hcall⟩⟩ ?_
    · cases (hnone w h.1).2
    · rintro ⟨hneg, r, i, -, -, -, hfree⟩
      cases (hnone i ⟨hfree, .inl hneg⟩).2
  | ok w =>
    cases hr : s.pipeSlot p rfd (some w) with
    | error rc =>
      obtain ⟨hrc, hnone⟩ := pipeSlot_error hr
      have hcall : s.syspipe p (some (wfd, rfd)) true = (rc, none, s) := by simp [syspipe, hw, hr]
      refine iff_of_true ⟨fun ⟨w', r', h⟩ => ?_, fun _ => ⟨rc, hrc, hcall⟩⟩ ?_
      · -- any slot will do for the reader, and the writer's is the only free one
        exfalso
        obtain ⟨hneg, hr'⟩ := hnone r' h.2.1
        have hw' := (hnone w' ⟨h.1.1, .inl hneg⟩).2
        exact h.2.2 (Option.some_inj.mp (hw'.trans hr'.symm))
      · rintro ⟨-, r, i, hf, hrfd, -, -⟩
        have hfree : s.slot p r = none := by simpa using List.find?_some hf
        have := (hnone r ⟨hfree, .inr hrfd⟩).1
        omega
    | ok r =>
      by_cases hwr : w = r
      · subst hwr
        exact pipe_slots_iff_of_same hw hr
      · obtain ⟨hsw, -⟩ := pipeSlot_ok hw
        obtain ⟨hsr, -⟩ := pipeSlot_ok hr
        have hassigns : s.Assigns p wfd rfd w r := ⟨hsw, hsr, hwr⟩
        refine iff_of_true ⟨fun _ => ⟨w, r, hassigns, putAt_of_found hp hw hr hwr⟩,
          fun h => absurd ⟨w, r, hassigns⟩ h⟩ ?_
        rintro ⟨hneg, r', i, hf, hrfd, -, -⟩
        have hr' := Option.some_inj.mp ((pipeSlot_automatic hneg hw).symm.trans hf)
        have := hsr.2.resolve_left (by omega)
        exact hwr (Fin.ext (by rw [hr']; omega))

/-- The table of a program at its start: the first three descriptors are taken. -/
theorem pipe_slots_iff_boot :
    (boot [] 0).PipeMet 0 (-1) 4 ↔ ¬ (boot [] 0).WriterTakes 0 (-1) 4 :=
  pipe_slots_iff (by decide) (-1) 4

/-- A program asks for descriptor 3 for the reader, with 3 to 15 free. -/
theorem writer_takes_slot_of_reader :
    (boot [] 0).syspipe 0 (some (-1, 3)) true = (-EBADFD, none, boot [] 0) ∧
      (boot [] 0).Assigns 0 (-1) 3 4 3 ∧ ¬ (boot [] 0).PipeMet 0 (-1) 3 := by
  have hcall : ((boot [] 0).syspipe 0 (some (-1, 3)) true) = (-EBADFD, none, boot [] 0) := rfl
  have hassigns : (boot [] 0).Assigns 0 (-1) 3 4 3 :=
    ⟨⟨rfl, .inl (by decide)⟩, ⟨rfl, .inr rfl⟩, by decide⟩
  refine ⟨hcall, hassigns, fun h => ?_⟩
  obtain ⟨_, _, -, _, hput, -⟩ := h.1 ⟨4, 3, hassigns⟩
  rw [hcall] at hput
  cases hput

end MiniOs.IoSys
