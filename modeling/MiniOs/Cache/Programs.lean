import MiniOs.Cache.Invariant

/-!
# Running block programs on the cache

`Prog.runCache` is the meaning of a block program over the cache: a hold is a
`cache_get_block`, the contents of a held block are read through the slot it
returned, and the release is a `cache_release_block`, after the client's write when
there are new contents.  The simulation theorem says that on a reliable device this
is the meaning over the flat store of the logical contents.  No block is left held,
and none is left modified and clean.
-/

namespace MiniOs

variable {σ : Type} {d : Device σ} {N : Nat} {content : σ → Nat → Blk}

namespace Prog

variable {cap : Nat} {held : List Nat} {c : Cache σ}

/-- The release of slot `i`, with new contents and dirty, or clean. -/
def releaseCache (c : Cache σ) (i : Slot) : Option Blk → Cache σ
  | some data => (c.writeData i data).releaseBlock i .dirty
  | none => c.releaseBlock i .clean

/-- The meaning of a block program over the cache.  `env` gives the slot of each
held block. -/
def runCache (d : Device σ) :
    {held : List Nat} → {α : Type} → Prog Nat Blk cap held α → (Nat → Slot) → Cache σ → α × Cache σ
  | _, _, .pure a, _, c => (a, c)
  | _, _, .bind p k, env, c =>
      let r := runCache d p env c
      runCache d (k r.1) env r.2
  | _, _, .load b _, env, c => ((c.ents (env b)).data, c)
  | _, _, .withBlock b _ onErr body, env, c =>
      match c.getBlock d (blksz * b) with
      | (0, some i, c) =>
          let r := runCache d body (Function.update env b i) c
          (r.1.2, releaseCache r.2 i r.1.1)
      | (_, _, c) => (onErr, c)
  | _, _, .flush, _, c => c.flush d

/-- The references a program holds. -/
def heldBy (held : List Nat) (env : Nat → Slot) (i : Slot) : Nat :=
  held.countP fun b => decide (env b = i)

/-- The cache a program runs on: its references are the ones it holds, and nothing is
unsaved. -/
structure Ready (N : Nat) (content : σ → Nat → Blk) (held : List Nat) (env : Nat → Slot)
    (c : Cache σ) : Prop where
  inv : c.Inv N content (heldBy held env) (fun _ => False)
  holds : ∀ b ∈ held, c.Holds (env b) b

/-- As long as fewer blocks are held than there are slots, some slot is not held. -/
theorem exists_unheld (h : held.length < cacheNent) (env : Nat → Slot) :
    ¬ ∀ i, 0 < heldBy held env i := by
  intro hall
  have hsub : (Finset.univ : Finset Slot) ⊆ (held.map env).toFinset := by
    intro i _
    obtain ⟨b, hb, hi⟩ := List.countP_pos_iff.mp (hall i)
    simp only [decide_eq_true_eq] at hi
    simp only [List.mem_toFinset, List.mem_map]
    exact ⟨b, hb, hi⟩
  have hcard := Finset.card_le_card hsub
  have hlen := List.toFinset_card_le (held.map env)
  rw [Finset.card_univ, Fintype.card_fin] at hcard
  rw [List.length_map] at hlen
  omega

theorem heldBy_congr {env env' : Nat → Slot} (h : ∀ b ∈ held, env' b = env b) :
    heldBy held env' = heldBy held env := by
  funext i
  apply List.countP_congr
  intro b hb
  rw [h b hb]

theorem heldBy_cons (held : List Nat) (env : Nat → Slot) (b : Nat) :
    heldBy (b :: held) env = Cache.addRef (heldBy held env) (env b) := by
  funext i
  by_cases hi : i = env b
  · subst hi
    simp [heldBy, Cache.addRef]
  · simp [heldBy, Cache.addRef, hi, Ne.symm hi]

/-- The get that opens the scope of a block of the device. -/
theorem Ready.getBlock (rel : Reliable d N content) {env : Nat → Slot}
    (h : Ready N content held env c) (room : held.length < cacheNent) {b : Nat} (hb : b < N) :
    ∃ i c', c.getBlock d (blksz * b) = (0, some i, c') ∧
      Ready N content (b :: held) (Function.update env b i) c' ∧
      (∀ b' ∈ held, Function.update env b i b' = env b') ∧
      c'.logical content = c.logical content := by
  obtain ⟨rc, p, c', heq, hlog, hkeep, ⟨i, b', rfl, rfl, hbb, -, hi, hinv⟩ | ⟨-, -, -, hwhy⟩⟩ :=
    h.inv.getBlock rel (blksz * b)
  swap
  · exfalso
    rcases hwhy with hw | hw | hw
    · exact hw (Nat.mul_mod_right blksz b)
    · rw [Nat.mul_div_cancel_left _ (by decide)] at hw
      omega
    · exact exists_unheld room env hw
  have hb' : b' = b := (Nat.eq_of_mul_eq_mul_left (by decide) hbb).symm
  subst hb'
  have hheld : ∀ b'' ∈ held, c'.Holds (env b'') b'' := by
    intro b'' hb''
    refine hkeep _ _ ?_ (h.holds b'' hb'')
    exact List.countP_pos_iff.mpr ⟨b'', hb'', by simp⟩
  -- a block that was held already is held at the same slot
  have henv : ∀ b'' ∈ held, Function.update env b' i b'' = env b'' := by
    intro b'' hb''
    by_cases hne : b'' = b'
    · subst hne
      rw [Function.update_self]
      exact (hinv.uniq (hheld b'' hb'').1 hi.1 ((hheld b'' hb'').2.trans hi.2.symm)).symm
    · rw [Function.update_of_ne hne]
  refine ⟨i, c', heq, ⟨?_, ?_⟩, henv, funext hlog⟩
  · rw [heldBy_cons, Function.update_self, heldBy_congr henv]
    exact hinv
  · intro b'' hb''
    rcases List.mem_cons.mp hb'' with rfl | hb''
    · rw [Function.update_self]
      exact hi
    · rw [henv b'' hb'']
      exact hheld b'' hb''

/-- The release that closes the scope. -/
theorem Ready.releaseCache {env env' : Nat → Slot} {b : Nat}
    (h : Ready N content (b :: held) env' c) (henv : ∀ b' ∈ held, env' b' = env b')
    (upd : Option Blk) :
    Ready N content held env (releaseCache c (env' b) upd) ∧
      (releaseCache c (env' b) upd).logical content = settle (c.logical content) b upd := by
  have hpos : 0 < heldBy (b :: held) env' (env' b) := by
    rw [heldBy_cons, Cache.addRef, Function.update_self]
    omega
  have hdrop : Cache.dropRef (heldBy (b :: held) env') (env' b) = heldBy held env := by
    rw [heldBy_cons, Cache.dropRef, Cache.addRef, ← heldBy_congr henv]
    simp
  have hb := h.holds b (by simp)
  -- the release changes neither the position nor the validity of an entry
  have hkeep : ∀ (c' : Cache σ) flag j b', c'.Holds j b' →
      (c'.releaseBlock (env' b) flag).Holds j b' := by
    intro c' flag j b' hj
    rw [Cache.releaseBlock]
    split
    · exact hj
    · by_cases hji : j = env' b
      · subst hji
        simpa [Cache.Holds] using hj
      · simpa [Cache.Holds, hji] using hj
  have hholds : ∀ b' ∈ held, c.Holds (env b') b' := by
    intro b' hb'
    rw [← henv b' hb']
    exact h.holds b' (List.mem_cons_of_mem _ hb')
  cases upd with
  | none =>
    have key := h.inv.releaseBlock (fun _ => False) hpos .clean
      (fun _ _ => Iff.rfl) (fun h => h.elim) (fun _ h => h)
    rw [hdrop] at key
    exact ⟨⟨key.1, fun b' hb' => hkeep c _ _ _ (hholds b' hb')⟩, funext key.2⟩
  | some data =>
    have hw := h.inv.writeData hpos data
    have key := hw.releaseBlock (fun _ => False) hpos .dirty
      (fun j hj => by simp [hj]) (fun h => h.elim) (fun h => by cases h)
    rw [hdrop] at key
    refine ⟨⟨key.1, ?_⟩, ?_⟩
    · intro b' hb'
      apply hkeep
      have := hholds b' hb'
      by_cases hj : env b' = env' b <;> simpa [Cache.writeData, Cache.Holds, hj] using this
    · rw [settle, ← h.inv.logical_writeData hb data]
      exact funext key.2

/-- The cache simulates the flat store: on a reliable device a program returns what it
returns over the logical contents and leaves the logical contents it leaves there,
and every block it got is released. -/
theorem runCache_sim (rel : Reliable d N content) (hcap : cap ≤ cacheNent) :
    {held : List Nat} → {α : Type} → (p : Prog Nat Blk cap held α) → (env : Nat → Slot) →
      (c : Cache σ) → Ready N content held env c →
      run (fun b => decide (b < N)) p (c.logical content) =
          ((runCache d p env c).1, (runCache d p env c).2.logical content) ∧
        Ready N content held env (runCache d p env c).2
  | _, _, .pure _, _, _, h => ⟨rfl, h⟩
  | _, _, .bind p k, env, c, h => by
      obtain ⟨hp, hr⟩ := runCache_sim rel hcap p env c h
      obtain ⟨hk, hr'⟩ := runCache_sim rel hcap (k (runCache d p env c).1) env _ hr
      refine ⟨?_, hr'⟩
      simp only [run, hp, runCache]
      exact hk
  | held, _, .load b mem, env, c, h => by
      refine ⟨?_, h⟩
      simp only [run, runCache]
      rw [Cache.logical_of_holds h.inv.uniq (h.holds b mem)]
  | held, _, .withBlock b room onErr body, env, c, h => by
      by_cases hb : b < N
      · obtain ⟨i, c1, hget, h1, henv, hlog⟩ := h.getBlock rel (by omega) hb
        obtain ⟨hbody, h2⟩ := runCache_sim rel hcap body _ c1 h1
        have h3 := h2.releaseCache henv (runCache d body (Function.update env b i) c1).1.1
        rw [Function.update_self] at h3
        simp only [runCache, hget]
        refine ⟨?_, h3.1⟩
        rw [← hlog, run_withBlock _ _ (by simpa using hb), hbody, h3.2]
      · obtain ⟨rc, p, c1, hget, hlog, hkeep, ⟨i, b', rfl, rfl, hbb, hb', -⟩ | ⟨hrc, rfl, hinv, -⟩⟩ :=
          h.inv.getBlock rel (blksz * b)
        · have : b' = b := (Nat.eq_of_mul_eq_mul_left (by decide) hbb).symm
          omega
        · simp only [runCache, hget]
          refine ⟨?_, hinv, ?_⟩
          · simp only [run, hb, decide_false, Bool.false_eq_true, if_false]
            rw [funext hlog]
          · intro b' hb'
            refine hkeep _ _ ?_ (h.holds b' hb')
            exact List.countP_pos_iff.mpr ⟨b', hb', by simp⟩
  | _, _, .flush, env, c, h => by
      obtain ⟨c', hf, hinv, hcl, hlog, -⟩ := h.inv.flush rel
      simp only [run, runCache, hf]
      refine ⟨?_, hinv, ?_⟩
      · rw [funext hlog]
      · intro b hb
        exact (hcl.holds _ _).mpr (h.holds b hb)

end Prog

end MiniOs
