import MiniOs.Base.Block

/-!
# Programs over a block layer

A program that uses a block layer gets a block, reads it through the pointer it
was given, and releases it, clean or with new contents.  `Prog P B cap held α` is
such a program as a tree.  Positions are of type `P`, block contents of type `B`,
the result is of type `α`, `held` are the positions the program holds when it
starts, and `cap` bounds how many it holds at once.  The scope of a hold is the
constructor `withBlock`, so a program cannot forget a release, cannot read a block
it does not hold, and cannot hold more than `cap` blocks.

The tree has one meaning for each layer it is run on.  `Prog.run` is its meaning
over a flat store: a hold is only a range check, and a release with new contents
is an update.  Any other layer is compared with this one.

`Fallible` adds the error code of a C function on top.  `Fallible.exec` runs it
over the flat store, and the store a failed program leaves is kept, as it is kept
by a function that returns an error in the middle.
-/

namespace MiniOs

/-- A program over a block layer that starts with the blocks `held`. -/
inductive Prog (P B : Type) (cap : Nat) : List P → Type → Type 1 where
  /-- The result. -/
  | pure {held : List P} {α : Type} (a : α) : Prog P B cap held α
  /-- One program after another. -/
  | bind {held : List P} {α β : Type} (p : Prog P B cap held β)
      (k : β → Prog P B cap held α) : Prog P B cap held α
  /-- The contents of a held block, as they are now. -/
  | load {held : List P} (pos : P) (mem : pos ∈ held) : Prog P B cap held B
  /-- Get the block at `pos`, run `body` while it is held, and release it: with new
      contents and dirty, or as it is and clean.  `onErr` is the result when the
      block cannot be had. -/
  | withBlock {held : List P} {α : Type} (pos : P) (room : held.length < cap) (onErr : α)
      (body : Prog P B cap (pos :: held) (Option B × α)) : Prog P B cap held α
  /-- Write every dirty block back. -/
  | flush {held : List P} : Prog P B cap held Int

namespace Prog

variable {P B : Type} {cap : Nat} {held : List P} {α β : Type}

instance : Monad (Prog P B cap held) where
  pure := Prog.pure
  bind := Prog.bind

section Flat

variable [DecidableEq P]

/-- What a release leaves in a flat store. -/
def settle (s : P → B) (pos : P) : Option B → (P → B)
  | some b => Function.update s pos b
  | none => s

/-- The meaning of a program over a flat store whose blocks are the positions that
satisfy `inRange`. -/
def run (inRange : P → Bool) :
    {held : List P} → {α : Type} → Prog P B cap held α → (P → B) → α × (P → B)
  | _, _, .pure a, s => (a, s)
  | _, _, .bind p k, s =>
      let r := run inRange p s
      run inRange (k r.1) r.2
  | _, _, .load pos _, s => (s pos, s)
  | _, _, .withBlock pos _ onErr body, s =>
      if inRange pos then
        let r := run inRange body s
        (r.1.2, settle r.2 pos r.1.1)
      else (onErr, s)
  | _, _, .flush, s => (0, s)

variable (inRange : P → Bool) (s : P → B)

@[simp] theorem run_pure (a : α) :
    run inRange (Pure.pure a : Prog P B cap held α) s = (a, s) := rfl

@[simp] theorem run_bind (p : Prog P B cap held β) (k : β → Prog P B cap held α) :
    run inRange (p >>= k) s = run inRange (k (run inRange p s).1) (run inRange p s).2 := rfl

/-- The continuation of a load sees the block as it is. -/
theorem run_load_bind (pos : P) (mem : pos ∈ held) (k : B → Prog P B cap held α) :
    run inRange ((.load pos mem : Prog P B cap held B) >>= k) s = run inRange (k (s pos)) s := rfl

theorem run_withBlock {pos : P} (h : inRange pos = true) (room : held.length < cap) (onErr : α)
    (body : Prog P B cap (pos :: held) (Option B × α)) :
    run inRange (.withBlock pos room onErr body) s =
      ((run inRange body s).1.2, settle (run inRange body s).2 pos (run inRange body s).1.1) := by
  simp [run, h]

end Flat

end Prog

/-! ## Programs that return an error code -/

/-- A program that may return an error code. -/
abbrev Fallible (P B : Type) (cap : Nat) (held : List P) := ExceptT Int (Prog P B cap held)

namespace Fallible

variable {P B : Type} {cap : Nat} {held : List P} {α β : Type}

/-- `withBlock` with the error code returned when the block cannot be had.  The
body returns its own error codes, after the release. -/
def withBlock (pos : P) (room : held.length < cap) (code : Int)
    (body : Prog P B cap (pos :: held) (Option B × Except Int α)) : Fallible P B cap held α :=
  ExceptT.mk (.withBlock pos room (.error code) body)

/-- Hold a block only to read it. -/
def readBlock (pos : P) (room : held.length < cap) (code : Int) : Fallible P B cap held B :=
  withBlock pos room code do
    let b ← .load pos (by simp)
    return (none, .ok b)

/-- Hold a block only to change it. -/
def modifyBlock (pos : P) (room : held.length < cap) (code : Int) (f : B → B) :
    Fallible P B cap held Unit :=
  withBlock pos room code do
    let b ← .load pos (by simp)
    return (some (f b), .ok ())

/-- The result of a program, its error code included, for a caller that goes on after an
error. -/
def attempt (x : Fallible P B cap held α) : Fallible P B cap held (Except Int α) :=
  ExceptT.lift x.run

/-- The program with `code` for every error code it returns. -/
def orFail (x : Fallible P B cap held α) (code : Int) : Fallible P B cap held α :=
  ExceptT.mk do
    match ← x.run with
    | .ok a => return .ok a
    | .error _ => return .error code

variable [DecidableEq P]

/-- The meaning of a fallible program over a flat store. -/
def exec (inRange : P → Bool) (x : Fallible P B cap held α) (s : P → B) :
    Except Int α × (P → B) :=
  Prog.run inRange x.run s

variable (inRange : P → Bool) (s : P → B) {x : Fallible P B cap held α} {code e : Int} {s' : P → B}
  {k : β → Fallible P B cap held α}

@[simp] theorem exec_lift (p : Prog P B cap held α) :
    exec inRange (liftM p : Fallible P B cap held α) s =
      (.ok (Prog.run inRange p s).1, (Prog.run inRange p s).2) := rfl

theorem exec_orFail_ok {a : α}
    (h : exec inRange x s = (.ok a, s')) : exec inRange (orFail x code) s = (.ok a, s') := by
  have hrun : Prog.run inRange x.run s = (.ok a, s') := h
  show Prog.run inRange (x.run >>= _) s = _
  rw [Prog.run_bind, hrun]
  rfl

theorem exec_orFail_error (h : exec inRange x s = (.error e, s')) :
    exec inRange (orFail x code) s = (.error code, s') := by
  have hrun : Prog.run inRange x.run s = (.error e, s') := h
  show Prog.run inRange (x.run >>= _) s = _
  rw [Prog.run_bind, hrun]
  rfl

/-- The error of a program ends the whole. -/
theorem exec_bind (x : Fallible P B cap held β) (k : β → Fallible P B cap held α) :
    exec inRange (x >>= k) s =
      match exec inRange x s with
      | (.ok a, s') => exec inRange (k a) s'
      | (.error e, s') => (.error e, s') := by
  show Prog.run inRange (x.run >>= ExceptT.bindCont k) s = _
  rw [Prog.run_bind, exec]
  rcases hx : Prog.run inRange x.run s with ⟨r | a, s'⟩
  · rfl
  · rfl

theorem exec_bind_ok {x : Fallible P B cap held β} {a : β} (h : exec inRange x s = (.ok a, s')) :
    exec inRange (x >>= k) s = exec inRange (k a) s' := by
  rw [exec_bind, h]

theorem exec_bind_error {x : Fallible P B cap held β} (h : exec inRange x s = (.error e, s')) :
    exec inRange (x >>= k) s = (.error e, s') := by
  rw [exec_bind, h]

theorem exec_withBlock {pos : P} (h : inRange pos = true) (room : held.length < cap) (code : Int)
    (body : Prog P B cap (pos :: held) (Option B × Except Int α)) :
    exec inRange (withBlock pos room code body) s =
      ((Prog.run inRange body s).1.2,
        Prog.settle (Prog.run inRange body s).2 pos (Prog.run inRange body s).1.1) :=
  Prog.run_withBlock inRange s h room _ body

theorem exec_readBlock {pos : P} (h : inRange pos = true) (room : held.length < cap) (code : Int) :
    exec inRange (readBlock pos room code : Fallible P B cap held B) s = (.ok (s pos), s) := by
  rw [readBlock, exec_withBlock inRange s h]
  rfl

theorem exec_modifyBlock {pos : P} (h : inRange pos = true) (room : held.length < cap) (code : Int)
    (f : B → B) :
    exec inRange (modifyBlock pos room code f : Fallible P B cap held Unit) s =
      (.ok (), Function.update s pos (f (s pos))) := by
  rw [modifyBlock, exec_withBlock inRange s h]
  rfl

/-! ## Error codes -/

/-- Every error code the program returns, from whatever store it starts, satisfies `p`. -/
def Throws (p : Int → Prop) (x : Fallible P B cap held α) : Prop :=
  ∀ inRange s e s', exec inRange x s = (.error e, s') → p e

variable {p : Int → Prop} {room : held.length < cap}

theorem Throws.pure (a : α) : Throws p (Pure.pure a : Fallible P B cap held α) := by
  intro inRange s e s' h
  cases h

theorem Throws.throw (he : p e) : Throws p (throw e : Fallible P B cap held α) := by
  intro inRange s e' s' h
  cases h
  exact he

theorem Throws.bind {x : Fallible P B cap held β}
    (hx : Throws p x) (hk : ∀ b, Throws p (k b)) : Throws p (x >>= k) := by
  intro inRange s e s' h
  rw [exec_bind] at h
  rcases hr : exec inRange x s with ⟨r | b, s1⟩
  · rw [hr] at h
    cases h
    exact hx inRange s _ _ hr
  · rw [hr] at h
    exact hk b inRange s1 e s' h

/-- Nothing follows an error. -/
theorem Throws.throw_bind (he : p e) :
    Throws p ((MonadExcept.throw e : Fallible P B cap held β) >>= k) := by
  intro inRange s e' s' h
  cases h
  exact he

theorem Throws.lift (q : Prog P B cap held α) : Throws p (liftM q : Fallible P B cap held α) := by
  intro inRange s e s' h
  cases h

theorem Throws.attempt (x : Fallible P B cap held α) : Throws p (attempt x) := by
  intro inRange s e s' h
  cases h

theorem Throws.orFail (hc : p code) :
    Throws p (orFail x code) := by
  intro inRange s e s' h
  rcases hr : exec inRange x s with ⟨_ | _, _⟩
  · rw [exec_orFail_error inRange s hr] at h
    cases h
    exact hc
  · rw [exec_orFail_ok inRange s hr] at h
    cases h

theorem Throws.withBlock {pos : P} {body : Prog P B cap (pos :: held) (Option B × Except Int α)}
    (hc : p code) (hb : ∀ inRange s e, (Prog.run inRange body s).1.2 = .error e → p e) :
    Throws p (withBlock pos room code body) := by
  intro inRange s e s' h
  by_cases hp : inRange pos = true
  · rw [exec_withBlock inRange s hp] at h
    rw [Prod.mk.injEq] at h
    exact hb inRange s e h.1
  · simp only [exec, Fallible.withBlock, ExceptT.run, ExceptT.mk, Prog.run, hp] at h
    cases h
    exact hc

theorem Throws.readBlock {pos : P} (hc : p code) :
    Throws p (readBlock pos room code : Fallible P B cap held B) := by
  apply Throws.withBlock hc
  intro inRange s e h
  cases h

theorem Throws.modifyBlock {pos : P} {f : B → B}
    (hc : p code) : Throws p (modifyBlock pos room code f : Fallible P B cap held Unit) := by
  apply Throws.withBlock hc
  intro inRange s e h
  cases h

theorem Throws.ite {c : Prop} [Decidable c] {y : Fallible P B cap held α} (hx : Throws p x)
    (hy : Throws p y) : Throws p (if c then x else y) := by
  split
  · exact hx
  · exact hy

/-! ## Programs that only read -/

/-- The program leaves every store as it is. -/
def Reads (x : Fallible P B cap held α) : Prop := ∀ inRange s, (exec inRange x s).2 = s

theorem Reads.pure (a : α) : Reads (Pure.pure a : Fallible P B cap held α) := fun _ _ => rfl

theorem Reads.throw (e : Int) : Reads (MonadExcept.throw e : Fallible P B cap held α) :=
  fun _ _ => rfl

theorem Reads.bind {x : Fallible P B cap held β}
    (hx : Reads x) (hk : ∀ b, Reads (k b)) : Reads (x >>= k) := by
  intro inRange s
  have hs := hx inRange s
  rw [exec_bind]
  rcases hr : exec inRange x s with ⟨_ | b, s1⟩
  · rw [hr] at hs
    exact hs
  · rw [hr] at hs
    obtain rfl : s1 = s := hs
    exact hk b inRange s1

theorem Reads.orFail (hx : Reads x) (code : Int) :
    Reads (orFail x code) := by
  intro inRange s
  have hs := hx inRange s
  rcases hr : exec inRange x s with ⟨_ | _, _⟩
  · rw [hr] at hs
    rw [exec_orFail_error inRange s hr]
    exact hs
  · rw [hr] at hs
    rw [exec_orFail_ok inRange s hr]
    exact hs

theorem Reads.readBlock (pos : P) (room : held.length < cap) (code : Int) :
    Reads (readBlock pos room code : Fallible P B cap held B) := by
  intro inRange s
  by_cases hp : inRange pos = true
  · rw [exec_readBlock inRange s hp]
  · simp only [exec, Fallible.readBlock, Fallible.withBlock, ExceptT.run, ExceptT.mk, Prog.run, hp]
    rfl

theorem Reads.ite {c : Prop} [Decidable c] {y : Fallible P B cap held α} (hx : Reads x)
    (hy : Reads y) : Reads (if c then x else y) := by
  split
  · exact hx
  · exact hy

end Fallible

end MiniOs
