import MiniOs.Ktfs.System

/-!
# Error codes

The driver reports success by 0 or a count, so a caller tells success from failure only
because every error code is negative.  That is a property of each function over every
store, and it is proved along the structure of the programs.
-/

namespace MiniOs.Ktfs

open Fallible (Throws)

/-- An error code is negative. -/
abbrev Neg (e : Int) : Prop := e < 0

variable {held : List Nat}

theorem claimBlock_throws (g : Geom) (room : held.length < cacheNent)
    (bmpBlk : Nat) : Throws Neg (claimBlock g room bmpBlk) := by
  refine .withBlock (by decide) ?_
  intro inRange s e h
  rw [Prog.run_load_bind] at h
  split at h
  · cases h
  · dsimp only at h
    split at h
    · cases h
      decide
    · cases h

theorem allocLoop_throws (g : Geom) (room : held.length < cacheNent) :
    ∀ n bmpBlk, Throws Neg (allocLoop g room n bmpBlk)
  | 0, _ => .throw (by decide)
  | n + 1, bmpBlk => by
      refine .bind (claimBlock_throws g room bmpBlk) fun found => ?_
      cases found with
      | none => exact allocLoop_throws g room n (bmpBlk + 1)
      | some blkNum => exact .bind (.modifyBlock (by decide)) fun _ => .pure _

theorem allocDataBlock_throws (g : Geom) (room : held.length < cacheNent) :
    Throws Neg (allocDataBlock g room) :=
  allocLoop_throws g room _ _

theorem entryOrAlloc_throws (g : Geom) (page : UInt32) (k : Nat) (alloc : Bool) :
    Throws Neg (entryOrAlloc g page k alloc) := by
  refine .withBlock (by decide) ?_
  intro inRange s e h
  rw [Prog.run_load_bind] at h
  by_cases hw : (s (dataBlkToPos g page)).word k ≠ 0
  · rw [if_pos hw] at h
    cases h
  · rw [if_neg hw] at h
    cases alloc
    · cases h
      decide
    · simp only [Bool.not_true, Bool.false_eq_true, if_false, Prog.run_bind] at h
      have halloc := allocDataBlock_throws g
        (show [dataBlkToPos g page].length < cacheNent by simp) inRange s
      rcases hr : Fallible.exec inRange (allocDataBlock g _) s with ⟨rc | newBlk, s'⟩
      · have hrun : Prog.run inRange (allocDataBlock g _).run s = _ := hr
        rw [hrun] at h
        cases h
        exact halloc _ _ hr
      · have hrun : Prog.run inRange (allocDataBlock g _).run s = _ := hr
        rw [hrun] at h
        cases h

theorem pageOrAlloc_throws (g : Geom) (page : UInt32) (alloc : Bool) :
    Throws Neg (pageOrAlloc g page alloc) :=
  .ite (.pure _) (.ite (.throw_bind (by decide)) (allocDataBlock_throws g _))

theorem resolveOrAlloc_throws (g : Geom) (ino : Inode) (l : Nat) (alloc : Bool) :
    Throws Neg (resolveOrAlloc g ino l alloc) := by
  unfold resolveOrAlloc
  refine .ite (.ite (.pure _) (.ite (.throw_bind (by decide)) ?_)) (.ite ?_ (.ite ?_ ?_))
  · exact .bind (allocDataBlock_throws g _) fun _ => .ite (.pure _) (.pure _)
  · exact .bind (pageOrAlloc_throws g _ _) fun _ => .bind (entryOrAlloc_throws g _ _ _) fun _ => .pure _
  · exact .throw_bind (by decide)
  · exact .bind (pageOrAlloc_throws g _ _) fun _ => .bind (entryOrAlloc_throws g _ _ _) fun _ =>
      .bind (.readBlock (by decide)) fun _ => .bind (entryOrAlloc_throws g _ _ _) fun _ => .pure _

theorem writeLoop_throws (g : Geom) (pos : Nat) (buf : Nat → UInt8) (len : Nat) :
    ∀ fuel copied ino, Throws Neg (writeLoop g pos buf len fuel copied ino)
  | 0, _, _ => .pure _
  | fuel + 1, _, _ =>
      .ite (.pure _) <| .bind (resolveOrAlloc_throws g _ _ _) fun _ =>
        .bind (.modifyBlock (by decide)) fun _ => writeLoop_throws g pos buf len fuel _ _

end MiniOs.Ktfs
