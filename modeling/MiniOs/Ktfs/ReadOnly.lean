import MiniOs.Ktfs.System

/-!
# Calls that only read

Opening, closing and reading files leave every block as it is, and an open file stays
open until it is closed.
-/

namespace MiniOs.Ktfs

open Fallible (Reads)

variable {N : Nat} {g : Geom}

theorem readInode_reads (g : Geom) (i : Nat) : Reads (readInode g i) :=
  .bind (.readBlock _ _ _) fun _ => .pure _

theorem resolveBlock_reads (g : Geom) (ino : Inode) (l : Nat) : Reads (resolveBlock g ino l) := by
  unfold resolveBlock
  refine .ite (.pure _) (.ite (.bind (.readBlock _ _ _) fun _ => .pure _) (.ite ?_ ?_))
  · exact .bind (.throw _) fun _ =>
      .bind (.readBlock _ _ _) fun _ => .bind (.readBlock _ _ _) fun _ => .pure _
  · exact .bind (.readBlock _ _ _) fun _ => .bind (.readBlock _ _ _) fun _ => .pure _

theorem findDentryLoop_reads (g : Geom) (root : Inode) (name : List UInt8) :
    ∀ n d, Reads (findDentryLoop g root name n d)
  | 0, _ => .throw _
  | n + 1, d => by
      unfold findDentryLoop
      exact .bind (.orFail (resolveBlock_reads g root _) _) fun _ => .bind (.readBlock _ _ _) fun _ =>
        .ite (.pure _) (findDentryLoop_reads g root name n (d + 1))

theorem findDentry_reads (g : Geom) (name : List UInt8) : Reads (findDentry g name) :=
  .bind (readInode_reads g _) fun root => findDentryLoop_reads g root name _ _

theorem readLoop_reads (g : Geom) (ino : Inode) (pos len : Nat) :
    ∀ fuel copied, Reads (readLoop g ino pos len fuel copied)
  | 0, _ => .pure _
  | fuel + 1, copied => by
      unfold readLoop
      exact .ite (.pure _) (.bind (resolveBlock_reads g ino _) fun _ => .bind (.readBlock _ _ _)
        fun _ => .bind (readLoop_reads g ino pos len fuel _) fun _ => .pure _)

/-- The calls that only read. -/
def FsOp.ReadOnly : FsOp → Prop
  | .open _ => True
  | .close _ => True
  | .readat _ _ _ => True
  | .cntl _ (.setEnd (some _)) => False
  | .cntl _ _ => True
  | .flush => True
  | _ => False

/-- `ktfs_open` leaves the blocks and the files that are open. -/
theorem run_ktfsOpen_keeps (files : Files) (name : List UInt8) (s : Nat → Blk) :
    (Prog.run (inRange N) (ktfsOpen g files name) s).2 = s ∧
      ∀ f, (files f).inUse = true →
        (Prog.run (inRange N) (ktfsOpen g files name) s).1.2 f = files f := by
  have hfind := findDentry_reads g name (inRange N) s
  rw [Fallible.exec] at hfind
  simp only [ktfsOpen, Prog.run_bind, hfind]
  cases hres : (Prog.run (inRange N) (findDentry g name).run s).1 with
  | error rc => exact ⟨rfl, fun _ _ => rfl⟩
  | ok i =>
    cases hslot : (List.finRange ktfsMaxOpen).find? fun f => !(files f).inUse with
    | none => exact ⟨rfl, fun _ _ => rfl⟩
    | some f' =>
      have hino := readInode_reads g i (inRange N) s
      rw [Fallible.exec] at hino
      simp only [Prog.run_bind, hino]
      cases hres' : (Prog.run (inRange N) (readInode g i).run s).1 with
      | error rc => exact ⟨rfl, fun _ _ => rfl⟩
      | ok ino =>
        refine ⟨rfl, fun f hf => Function.update_of_ne ?_ _ _⟩
        have hfree := List.find?_some hslot
        rintro rfl
        rw [hf] at hfree
        cases hfree

theorem run_ktfsReadat_keeps (files : Files) (f : Fd) (pos : Nat) (len : Int) (s : Nat → Blk) :
    (Prog.run (inRange N) (ktfsReadat g files f pos len) s).2 = s := by
  unfold ktfsReadat
  by_cases hlen : len ≤ 0
  · rw [if_pos hlen]
    rfl
  · rw [if_neg hlen]
    by_cases hpos : (files f).size.toNat ≤ pos
    · rw [if_pos hpos]
      rfl
    · rw [if_neg hpos]
      have hreads : ∀ n, Reads (do
          let ino ← readInode g (files f).inodeIdx
          readLoop g ino pos n n 0 : K [] (List UInt8)) :=
        fun n => .bind (readInode_reads g _) fun ino => readLoop_reads g ino pos n n 0
      have hs := hreads (min len.toNat ((files f).size.toNat - pos)) (inRange N) s
      rw [Fallible.exec] at hs
      simp only [Prog.run_bind, hs]
      split <;> rfl

/-- A call that only reads leaves the blocks, and a file that is open and not closed. -/
theorem FlatFs.step_readOnly (fs : FlatFs) {op : FsOp} (hop : op.ReadOnly) :
    (fs.step N g op).2.store = fs.store ∧
      ∀ f, (fs.files f).inUse = true → op ≠ .close f → (fs.step N g op).2.files f = fs.files f := by
  cases op with
  | «open» name =>
    obtain ⟨hs, hf⟩ := run_ktfsOpen_keeps (N := N) (g := g) fs.files name fs.store
    exact ⟨hs, fun f hu _ => hf f hu⟩
  | close f' =>
    refine ⟨rfl, fun f _ hne => Function.update_of_ne ?_ _ _⟩
    rintro rfl
    exact hne rfl
  | readat f' pos len =>
    refine ⟨?_, fun f _ _ => rfl⟩
    exact run_ktfsReadat_keeps fs.files f' pos len fs.store
  | cntl f' cmd =>
    cases cmd with
    | getBlksz => exact ⟨rfl, fun _ _ _ => rfl⟩
    | getEnd arg => cases arg <;> exact ⟨rfl, fun _ _ _ => rfl⟩
    | setEnd arg =>
      cases arg with
      | none => exact ⟨rfl, fun _ _ _ => rfl⟩
      | some n => exact hop.elim
    | other => exact ⟨rfl, fun _ _ _ => rfl⟩
  | flush => exact ⟨rfl, fun _ _ _ => rfl⟩
  | writeat f' pos buf len => exact hop.elim
  | create name => exact hop.elim
  | delete name => exact hop.elim

/-- A run of calls that only read. -/
theorem FlatFs.run_readOnly : ∀ (ops : List FsOp) (fs : FlatFs), (∀ op ∈ ops, op.ReadOnly) →
    (fs.run N g ops).store = fs.store ∧
      ∀ f, (fs.files f).inUse = true → .close f ∉ ops → (fs.run N g ops).files f = fs.files f
  | [], _, _ => ⟨rfl, fun _ _ _ => rfl⟩
  | op :: ops, fs, hops => by
      obtain ⟨hs, hf⟩ := fs.step_readOnly (N := N) (g := g) (hops op (List.mem_cons_self ..))
      obtain ⟨hs', hf'⟩ := FlatFs.run_readOnly ops (fs.step N g op).2
        fun op' hop' => hops op' (List.mem_cons_of_mem _ hop')
      refine ⟨hs'.trans hs, fun f hu hc => ?_⟩
      rw [List.mem_cons, not_or] at hc
      have hstep := hf f hu (Ne.symm hc.1)
      show ((fs.step N g op).2.run N g ops).files f = _
      rw [hf' f (by rw [hstep]; exact hu) hc.2, hstep]

/-! ## Calls that leave no trace -/

end MiniOs.Ktfs
