import MiniOs.Elf.Model

/-!
# What the ELF loader writes and when it succeeds

The test of a segment against the end of user memory adds two 64-bit numbers from the file.  When
the sum wraps around, the segment passes the test and is written to the end of the address space.
`Stays` is exactly when a segment that passes the tests is written inside user memory all the same.

When no sum wraps around, `elf_load` succeeds on the files that `Loadable` describes, and leaves the
memory that the segments describe: each is its file bytes followed by zeros, later segments over
earlier ones.
-/

namespace MiniOs.Elf

open MemWrite (covers_iff not_covers_of_size covers_at applyAll_ite)

variable {file : File} {ph : Phdr} {phoff pos n a : Word} {m : ByteMem}

/-! ## Reading -/

/-- A read of a negative count is refused. -/
theorem ioreadat_neg (h : n.toInt < 0) : ioreadat file pos n = (-EINVAL, []) := if_pos h

theorem ioreadat_of_nonneg (h : 0 ≤ n.toInt) :
    ioreadat file pos n = (((min n.toNat (file.length - pos.toNat) : Nat) : Int),
      (file.drop pos.toNat).take (min n.toNat (file.length - pos.toNat))) := by
  rw [ioreadat, if_neg (by omega)]
  by_cases hpos : file.length ≤ pos.toNat
  · have hzero : min n.toNat (file.length - pos.toNat) = 0 := by omega
    rw [if_pos hpos, hzero]
    rfl
  · rw [if_neg hpos]

/-- A positive `long` as a number. -/
theorem toInt_of_lt (h : n.toNat < 2 ^ 63) : n.toInt = n.toNat := by
  rw [BitVec.toInt_eq_toNat_of_lt]
  omega

theorem toInt_neg_of_le (h : 2 ^ 63 ≤ n.toNat) : n.toInt = (n.toNat : Int) - 2 ^ 64 := by
  rw [BitVec.toInt_eq_toNat_cond, if_neg (by omega)]
  rfl

theorem ioreadat_length_le (file : File) (pos n : Word) : (ioreadat file pos n).2.length ≤ n.toNat := by
  rcases lt_or_ge n.toInt 0 with h | h
  · rw [ioreadat_neg h]
    exact Nat.zero_le _
  · rw [ioreadat_of_nonneg h, List.length_take]
    omega

/-- The value of a read is its count. -/
theorem ioreadat_value (file : File) (pos : Word) (h : n.toNat < 2 ^ 63) :
    (ioreadat file pos n).1 = ((ioreadat file pos n).2.length : Int) := by
  have hn : 0 ≤ n.toInt := by rw [toInt_of_lt h]; omega
  rw [ioreadat_of_nonneg hn, List.length_take, List.length_drop]
  omega

/-- A read is full when the file has the bytes. -/
theorem ioreadat_full (file : File) (pos : Word) (hn : 0 < n.toNat) (h : n.toNat < 2 ^ 63) :
    (ioreadat file pos n).1 = n.toNat ↔ pos.toNat + n.toNat ≤ file.length := by
  have hint : 0 ≤ n.toInt := by rw [toInt_of_lt h]; omega
  rw [ioreadat_of_nonneg hint]
  simp only [Nat.cast_inj]
  omega

theorem ioreadat_bytes (h : n.toNat < 2 ^ 63) (hfull : pos.toNat + n.toNat ≤ file.length) :
    (ioreadat file pos n).2 = (file.drop pos.toNat).take n.toNat := by
  have hint : 0 ≤ n.toInt := by rw [toInt_of_lt h]; omega
  rw [ioreadat_of_nonneg hint, Nat.min_eq_left (by omega)]

/-! ## Where segments are written -/

/-- The bytes of file data that the read for a segment gets. -/
def Phdr.got (file : File) (ph : Phdr) : Nat := (ioreadat file ph.offset ph.filesz).2.length

/-- The file ends before the segment's data does, and what there is of it lies in user memory. -/
def Phdr.Cut (file : File) (ph : Phdr) : Prop :=
  ph.got file < ph.filesz.toNat ∧
    (ph.got file = 0 ∨ ph.vaddr.toNat + ph.got file ≤ Memory.umemEnd)

/-- The end of the segment does not wrap around, or the segment is cut short before that. -/
def Phdr.Stays (file : File) (ph : Phdr) : Prop :=
  ph.vaddr.toNat + ph.memsz.toNat < 2 ^ 64 ∨ ph.Cut file

/-- All writes are to user memory. -/
def Confined (ws : List MemWrite) : Prop := ∀ w ∈ ws, ∀ a, w.Covers a → IsUser a

/-- The checks of a header, in numbers. -/
theorem Phdr.Checked.bounds (h : ph.Checked) :
    Memory.umemStart ≤ ph.vaddr.toNat ∧
      (ph.vaddr.toNat + ph.memsz.toNat) % 2 ^ 64 ≤ Memory.umemEnd ∧
      ph.filesz.toNat ≤ ph.memsz.toNat := by
  obtain ⟨hstart, hend, hsize⟩ := h
  rw [BitVec.le_def] at hstart hend hsize
  rw [BitVec.toNat_add] at hend
  exact ⟨hstart, hend, hsize⟩

/-- A write inside of user memory. -/
theorem covers_user {w : MemWrite} (hlo : Memory.umemStart ≤ w.start.toNat)
    (hhi : w.start.toNat + w.size ≤ Memory.umemEnd) (h : w.Covers a) : IsUser a := by
  rw [covers_iff (by simp only [Memory.umemEnd] at hhi; omega)] at h
  exact ⟨by omega, by omega⟩

section

variable (hch : ph.Checked)

include hch

/-- A read of a count that is negative as a `long` gets nothing, and is taken for a full one only
when the count is that of the error code. -/
theorem loadSegment_neg (h : 2 ^ 63 ≤ ph.filesz.toNat) :
    (loadSegment file ph).2 = [.copy ph.vaddr []] := by
  have hneg := toInt_neg_of_le h
  have hlt := ph.filesz.isLt
  have hmem := ph.memsz.isLt
  have hpos : 0 < ph.filesz := by
    rw [BitVec.lt_def]
    exact Nat.lt_of_lt_of_le (by decide) h
  have hread : ioreadat file ph.offset ph.filesz = (-EINVAL, []) := ioreadat_neg (by omega)
  simp only [loadSegment, if_pos hch, hread, hpos, if_true, true_and]
  by_cases heq : -EINVAL ≠ ph.filesz.toInt
  · rw [if_pos heq]
  · rw [if_neg heq]
    -- the count is the greatest number, so nothing is left to fill
    have hmax : ph.filesz.toNat = 2 ^ 64 - 1 := by
      rw [not_not, hneg, EINVAL] at heq
      omega
    have hle := hch.bounds.2.2
    have hno : ¬ ph.filesz < ph.memsz := by
      rw [BitVec.lt_def]
      omega
    rw [if_neg hno]
    rfl

section

variable (h : ph.filesz.toNat < 2 ^ 63)

include h

/-- The writes of a segment whose data is there. -/
theorem loadSegment_full (hgot : ph.got file = ph.filesz.toNat) :
    loadSegment file ph =
      (0, (if 0 < ph.filesz then [.copy ph.vaddr (ioreadat file ph.offset ph.filesz).2] else []) ++
        if ph.filesz < ph.memsz
        then [.zero (ph.vaddr + ph.filesz) (ph.memsz - ph.filesz).toNat] else []) := by
  have hval := ioreadat_value file ph.offset h
  rw [show (ioreadat file ph.offset ph.filesz).2.length = ph.filesz.toNat from hgot] at hval
  rw [loadSegment, if_pos hch]
  rw [if_neg]
  rintro ⟨-, hne⟩
  exact hne (hval.trans (toInt_of_lt h).symm)

theorem loadSegment_short (hgot : ph.got file < ph.filesz.toNat) :
    loadSegment file ph = (- EIO, [.copy ph.vaddr (ioreadat file ph.offset ph.filesz).2]) := by
  have hval := ioreadat_value file ph.offset h
  have hpos : 0 < ph.filesz := by
    rw [BitVec.lt_def]
    exact Nat.lt_of_le_of_lt (Nat.zero_le _) hgot
  rw [loadSegment, if_pos hch]
  simp only [hpos, if_true, true_and]
  rw [if_pos]
  rw [hval, toInt_of_lt h]
  rw [Phdr.got] at hgot
  omega

/-- A segment whose data is there, and whose end wraps around, is written to the last address. -/
theorem not_confined_wrap
    (hgot : ph.got file = ph.filesz.toNat) (hwrap : 2 ^ 64 ≤ ph.vaddr.toNat + ph.memsz.toNat) :
    ¬ Confined (loadSegment file ph).2 := by
  have hv := ph.vaddr.isLt
  have hm := ph.memsz.isLt
  have hle := hch.bounds.2.2
  have hlast : ∀ a : Word, a.toNat = 2 ^ 64 - 1 → ¬ IsUser a := by
    intro a ha huser
    have := huser.2
    simp only [Memory.umemEnd] at this
    omega
  rw [loadSegment_full hch h hgot]
  intro hconf
  rcases Nat.lt_or_ge (2 ^ 64 - 1 - ph.vaddr.toNat) ph.filesz.toNat with hin | hout
  · have hpos : 0 < ph.filesz := by
      rw [BitVec.lt_def]
      exact Nat.lt_of_le_of_lt (Nat.zero_le _) hin
    obtain ⟨a, hcov, ha⟩ := covers_at
      (w := .copy ph.vaddr (ioreadat file ph.offset ph.filesz).2)
      (show _ < (ioreadat file ph.offset ph.filesz).2.length from hgot.symm ▸ hin)
      (show ph.vaddr.toNat + _ < _ by omega)
    refine hlast a ?_ (hconf _ ?_ a hcov)
    · rw [ha, MemWrite.start]
      omega
    · rw [if_pos hpos]
      exact List.mem_append_left _ (List.mem_singleton_self _)
  · have hlt : ph.filesz < ph.memsz := by
      rw [BitVec.lt_def]
      omega
    have hstart : (ph.vaddr + ph.filesz).toNat = ph.vaddr.toNat + ph.filesz.toNat := by
      rw [BitVec.toNat_add]
      omega
    have hsize : (ph.memsz - ph.filesz).toNat = ph.memsz.toNat - ph.filesz.toNat :=
      BitVec.toNat_sub_of_le (BitVec.le_of_lt hlt)
    obtain ⟨a, hcov, ha⟩ := covers_at
      (w := .zero (ph.vaddr + ph.filesz) (ph.memsz - ph.filesz).toNat)
      (j := 2 ^ 64 - 1 - ph.vaddr.toNat - ph.filesz.toNat)
      (by rw [MemWrite.size, hsize]; omega) (by rw [MemWrite.start, hstart]; omega)
    refine hlast a ?_ (hconf _ ?_ a hcov)
    · rw [ha, MemWrite.start, hstart]
      omega
    · rw [if_pos hlt]
      exact List.mem_append_right _ (List.mem_singleton_self _)

/-- What there is of a segment's data is written to user memory, or goes past its end. -/
theorem confined_short (hgot : ph.got file < ph.filesz.toNat) :
    Confined (loadSegment file ph).2 ↔
      ph.got file = 0 ∨ ph.vaddr.toNat + ph.got file ≤ Memory.umemEnd := by
  have hv := ph.vaddr.isLt
  have hstart := hch.bounds.1
  rw [loadSegment_short hch h hgot]
  constructor
  · intro hconf
    by_contra hnot
    rw [not_or] at hnot
    have hmax : max ph.vaddr.toNat Memory.umemEnd - ph.vaddr.toNat < ph.got file := by omega
    have hend : Memory.umemEnd < 2 ^ 64 := by decide
    obtain ⟨a, hcov, ha⟩ := covers_at
      (w := .copy ph.vaddr (ioreadat file ph.offset ph.filesz).2) hmax
      (show ph.vaddr.toNat + _ < _ by omega)
    have huser := (hconf _ (List.mem_singleton_self _) a hcov).2
    rw [ha, MemWrite.start] at huser
    omega
  · rintro (hzero | hend) w hw a hcov
    · rw [List.mem_singleton.mp hw] at hcov
      exact absurd hcov (not_covers_of_size (w := .copy ph.vaddr _) hzero a)
    · rw [List.mem_singleton.mp hw] at hcov
      exact covers_user (w := .copy ph.vaddr _) hstart hend hcov

end

/-- A segment that does not wrap around is written to user memory. -/
theorem confined_of_lt (hlt : ph.vaddr.toNat + ph.memsz.toNat < 2 ^ 64) :
    Confined (loadSegment file ph).2 := by
  obtain ⟨hstart, hend, hsize⟩ := hch.bounds
  rw [Nat.mod_eq_of_lt hlt] at hend
  have h : ph.filesz.toNat < 2 ^ 63 := by
    simp only [Memory.umemEnd] at hend
    omega
  have hgot : ph.got file ≤ ph.filesz.toNat := ioreadat_length_le _ _ _
  rcases Nat.lt_or_eq_of_le hgot with hshort | hfull
  · rw [confined_short hch h hshort]
    exact .inr (by omega)
  · rw [loadSegment_full hch h hfull]
    intro w hw a hcov
    rcases List.mem_append.mp hw with hw | hw
    · split at hw
      · rw [List.mem_singleton.mp hw] at hcov
        refine covers_user (w := .copy ph.vaddr _) hstart ?_ hcov
        rw [MemWrite.start, MemWrite.size,
          show (ioreadat file ph.offset ph.filesz).2.length = _ from hfull]
        omega
      · cases hw
    · split at hw
      case isTrue hfill =>
        have hbegin : (ph.vaddr + ph.filesz).toNat = ph.vaddr.toNat + ph.filesz.toNat := by
          rw [BitVec.toNat_add]
          omega
        have hcount : (ph.memsz - ph.filesz).toNat = ph.memsz.toNat - ph.filesz.toNat :=
          BitVec.toNat_sub_of_le (BitVec.le_of_lt hfill)
        rw [List.mem_singleton.mp hw] at hcov
        refine covers_user ?_ ?_ hcov
        · rw [MemWrite.start, hbegin]
          omega
        · rw [MemWrite.start, MemWrite.size, hbegin, hcount]
          omega
      case isFalse => cases hw

/-- A segment that passes the checks is written to user memory exactly when it stays there. -/
theorem confined_loadSegment :
    Confined (loadSegment file ph).2 ↔ ph.Stays file := by
  have hgot : ph.got file ≤ ph.filesz.toNat := ioreadat_length_le _ _ _
  rcases Nat.lt_or_ge (ph.vaddr.toNat + ph.memsz.toNat) (2 ^ 64) with hlt | hwrap
  · exact iff_of_true (confined_of_lt hch hlt) (.inl hlt)
  have hcut : ph.Stays file ↔ ph.Cut file := or_iff_right (Nat.not_lt.mpr hwrap)
  rw [hcut]
  rcases Nat.lt_or_ge ph.filesz.toNat (2 ^ 63) with h | hneg
  · rcases Nat.lt_or_eq_of_le hgot with hshort | hfull
    · rw [confined_short hch h hshort, Phdr.Cut, and_iff_right hshort]
    · refine iff_of_false (not_confined_wrap hch h hfull hwrap) fun hc => ?_
      exact absurd hfull (Nat.ne_of_lt hc.1)
  · have hnone : ph.got file = 0 := by
      rw [Phdr.got, ioreadat_neg (by rw [toInt_neg_of_le hneg]; omega)]
      rfl
    refine iff_of_true ?_ ⟨by omega, .inl hnone⟩
    rw [loadSegment_neg hch hneg]
    intro w hw a hcov
    rw [List.mem_singleton.mp hw] at hcov
    exact absurd hcov (not_covers_of_size rfl a)

end

/-! ## The whole file -/

/-- The `PT_LOAD` headers that the loop gets to. -/
def handled (file : File) (phoff : Word) : (n i : Nat) → List Phdr
  | 0, _ => []
  | n + 1, i =>
      let read := readPhdr file phoff i
      if read.1 ≠ phdrSize then []
      else if (phdrOf read.2).type ≠ ptLoad then handled file phoff n (i + 1)
      else
        phdrOf read.2 :: if (loadSegment file (phdrOf read.2)).1 ≠ 0 then []
          else handled file phoff n (i + 1)

theorem loadLoop_writes (file : File) (phoff : Word) (n i : Nat) :
    (loadLoop file phoff n i).2 = (handled file phoff n i).flatMap fun ph => (loadSegment file ph).2 := by
  induction n generalizing i with
  | zero => rfl
  | succ n ih =>
    simp only [loadLoop, handled]
    by_cases hread : (readPhdr file phoff i).1 ≠ phdrSize
    · rw [if_pos hread, if_pos hread]
      rfl
    rw [if_neg hread, if_neg hread]
    by_cases htype : (phdrOf (readPhdr file phoff i).2).type ≠ ptLoad
    · rw [if_pos htype, if_pos htype]
      exact ih (i + 1)
    rw [if_neg htype, if_neg htype]
    by_cases hseg : (loadSegment file (phdrOf (readPhdr file phoff i).2)).1 ≠ 0
    · rw [if_pos hseg, if_pos hseg]
      simp only [List.flatMap_cons, List.flatMap_nil, List.append_nil]
    · rw [if_neg hseg, if_neg hseg, List.flatMap_cons, ← ih (i + 1)]

/-- The header of a file. -/
def header (file : File) : Ehdr := ehdrOf (file.take ehdrSize)

/-- The segments that `elf_load` gets to. -/
def reached (file : File) : List Phdr :=
  if ehdrSize ≤ file.length ∧ (header file).Valid
  then handled file (header file).phoff (header file).phnum 0 else []

theorem read_header (file : File) :
    ((ioreadat file 0 (BitVec.ofNat 64 ehdrSize)).1 = ehdrSize ↔ ehdrSize ≤ file.length) ∧
      (ehdrSize ≤ file.length → ioreadat file 0 (BitVec.ofNat 64 ehdrSize) =
        ((ehdrSize : Int), file.take ehdrSize)) := by
  have hfull := ioreadat_full file 0 (n := BitVec.ofNat 64 ehdrSize) (by decide)
    (by decide)
  have hzero : (0 : Word).toNat + (BitVec.ofNat 64 ehdrSize).toNat = ehdrSize := rfl
  rw [hzero] at hfull
  refine ⟨hfull, fun hlen => Prod.ext (hfull.mpr hlen) ?_⟩
  rw [ioreadat_bytes (by decide) (by rw [hzero]; exact hlen)]
  rfl

/-- A file that has no valid header is refused. -/
theorem elfLoad_invalid (h : ¬ (ehdrSize ≤ file.length ∧ (header file).Valid)) :
    (elfLoad file).rc ≠ 0 ∧ (elfLoad file).writes = [] := by
  rw [elfLoad]
  by_cases hlen : ehdrSize ≤ file.length
  · have hread := (read_header file).2 hlen
    have hnot : ¬ (ehdrOf (file.take ehdrSize)).Valid := fun hv => h ⟨hlen, hv⟩
    simp only [hread, ne_eq, not_true_eq_false, if_false, if_neg hnot]
    exact ⟨by decide, trivial⟩
  · simp only [ne_eq, (read_header file).1, if_pos hlen]
    exact ⟨by decide, trivial⟩

theorem elfLoad_valid (hlen : ehdrSize ≤ file.length) (hv : (header file).Valid) :
    elfLoad file =
      { rc := (loadLoop file (header file).phoff (header file).phnum 0).1
        entry := if (loadLoop file (header file).phoff (header file).phnum 0).1 = 0
          then some (header file).entry else none
        writes := (loadLoop file (header file).phoff (header file).phnum 0).2 } := by
  have hv' : (ehdrOf (file.take ehdrSize)).Valid := hv
  simp only [elfLoad, (read_header file).2 hlen, ne_eq, not_true_eq_false, if_false, if_pos hv']
  rfl

/-- What `elf_load` writes is written for the segments it gets to. -/
theorem elfLoad_writes (file : File) :
    (elfLoad file).writes = (reached file).flatMap fun ph => (loadSegment file ph).2 := by
  rw [reached]
  split
  case isTrue h =>
    rw [elfLoad_valid h.1 h.2]
    exact loadLoop_writes file _ _ 0
  case isFalse h => exact (elfLoad_invalid h).2

/-- `elf_load` writes to user memory only, exactly when every segment that it gets to and that
passes the checks stays there. -/
theorem elfLoad_confined_iff (file : File) :
    Confined (elfLoad file).writes ↔ ∀ ph ∈ reached file, ph.Checked → ph.Stays file := by
  rw [elfLoad_writes]
  constructor
  · intro hconf ph hph hch
    rw [← confined_loadSegment hch]
    exact fun w hw => hconf w (List.mem_flatMap.mpr ⟨ph, hph, hw⟩)
  · intro hstay w hw
    obtain ⟨ph, hph, hw⟩ := List.mem_flatMap.mp hw
    by_cases hch : ph.Checked
    · exact (confined_loadSegment hch).mpr (hstay ph hph hch) w hw
    · rw [loadSegment, if_neg hch] at hw
      cases hw

/-- A file that is the given program headers behind a valid header. -/
def headersOnly (entry : Word) (phs : List Phdr) : File :=
  [0x7F, 'E'.toUInt8, 'L'.toUInt8, 'F'.toUInt8, 2, 1, 1] ++ List.replicate 9 0 ++ leBytes 2 2 ++
    leBytes 243 2 ++ leBytes 1 4 ++ leBytes entry.toNat 8 ++ leBytes 64 8 ++ List.replicate 14 0 ++
    leBytes 56 2 ++ leBytes phs.length 2 ++ List.replicate 6 0 ++
    phs.flatMap fun ph => leBytes ph.type 4 ++ leBytes 0 4 ++ leBytes ph.offset.toNat 8 ++
      leBytes ph.vaddr.toNat 8 ++ leBytes 0 8 ++ leBytes ph.filesz.toNat 8 ++
      leBytes ph.memsz.toNat 8 ++ leBytes 0 8

/-- A segment at the last page of the address space: its end wraps around to 0, and it is cleared. -/
theorem elfLoad_escapes : ¬ Confined
    (elfLoad (headersOnly 0xC0000000 [⟨ptLoad, 0, 0xFFFFFFFFFFFFF000, 0, 0x1000⟩])).writes := by
  have hw : (elfLoad (headersOnly 0xC0000000 [⟨ptLoad, 0, 0xFFFFFFFFFFFFF000, 0, 0x1000⟩])).writes =
      [.zero 0xFFFFFFFFFFFFF000 0x1000] := by decide +kernel
  intro hconf
  have huser := hconf (.zero 0xFFFFFFFFFFFFF000 0x1000) (by rw [hw]; exact .head _)
    0xFFFFFFFFFFFFF000 (by decide)
  exact absurd huser.2 (by decide)

/-! ## Files that load -/

/-- The position of program header `i`. -/
def phdrPos (phoff : Word) (i : Nat) : Nat :=
  (phoff + BitVec.ofNat 64 i * BitVec.ofNat 64 phdrSize).toNat

/-- Program header `i` of a file. -/
def phdrAt (file : File) (phoff : Word) (i : Nat) : Phdr :=
  phdrOf ((file.drop (phdrPos phoff i)).take phdrSize)

/-- The segment lies in user memory, and its data in the file. -/
structure Phdr.Ok (file : File) (ph : Phdr) : Prop where
  start : Memory.umemStart ≤ ph.vaddr.toNat
  stop : ph.vaddr.toNat + ph.memsz.toNat ≤ Memory.umemEnd
  size : ph.filesz.toNat ≤ ph.memsz.toNat
  data : ph.filesz.toNat = 0 ∨ ph.offset.toNat + ph.filesz.toNat ≤ file.length

/-- The address is in the segment. -/
def Phdr.Has (ph : Phdr) (a : Word) : Prop :=
  ph.vaddr.toNat ≤ a.toNat ∧ a.toNat < ph.vaddr.toNat + ph.memsz.toNat

instance (ph : Phdr) (a : Word) : Decidable (ph.Has a) := inferInstanceAs (Decidable (_ ∧ _))

/-- The memory with a segment in it: its file bytes, then zeros. -/
def Phdr.place (file : File) (m : ByteMem) (ph : Phdr) : ByteMem := fun a =>
  if ph.Has a then
    if a.toNat - ph.vaddr.toNat < ph.filesz.toNat
    then file.getD (ph.offset.toNat + (a.toNat - ph.vaddr.toNat)) 0 else 0
  else m a

theorem place_of_not_has (h : ¬ ph.Has a) : ph.place file m a = m a := if_neg h

theorem foldl_place_of_not_has {phs : List Phdr} (h : ∀ ph ∈ phs, ¬ ph.Has a) :
    phs.foldl (Phdr.place file) m a = m a := by
  induction phs generalizing m with
  | nil => rfl
  | cons ph phs ih =>
    rw [List.foldl_cons, ih fun q hq => h q (.tail _ hq)]
    exact place_of_not_has (h ph (.head _))

theorem Phdr.Ok.checked (h : ph.Ok file) : ph.Checked := by
  have hstop := h.stop
  simp only [Memory.umemEnd] at hstop
  refine ⟨?_, ?_, ?_⟩
  · rw [BitVec.le_def]
    exact h.start
  · rw [BitVec.le_def, BitVec.toNat_add, Nat.mod_eq_of_lt (by omega)]
    exact h.stop
  · rw [BitVec.le_def]
    exact h.size

/-- A header whose end does not wrap around is loaded when the segment is in order. -/
theorem loadSegment_eq_zero (file : File) (hlt : ph.vaddr.toNat + ph.memsz.toNat < 2 ^ 64) :
    (loadSegment file ph).1 = 0 ↔ ph.Ok file := by
  by_cases hch : ph.Checked
  · obtain ⟨hstart, hend, hsize⟩ := hch.bounds
    rw [Nat.mod_eq_of_lt hlt] at hend
    have h : ph.filesz.toNat < 2 ^ 63 := by
      simp only [Memory.umemEnd] at hend
      omega
    have hgot : ph.got file ≤ ph.filesz.toNat := ioreadat_length_le _ _ _
    have hval : ((ph.got file : Nat) : Int) = (ioreadat file ph.offset ph.filesz).1 :=
      (ioreadat_value file ph.offset h).symm
    have hdata : ph.got file = ph.filesz.toNat ↔
        ph.filesz.toNat = 0 ∨ ph.offset.toNat + ph.filesz.toNat ≤ file.length := by
      rcases Nat.eq_zero_or_pos ph.filesz.toNat with hz | hpos
      · refine iff_of_true (by omega) (.inl hz)
      · rw [← ioreadat_full file ph.offset hpos h, ← hval, Nat.cast_inj]
        exact (or_iff_right (Nat.ne_of_gt hpos)).symm
    rcases Nat.lt_or_eq_of_le hgot with hshort | hfull
    · rw [loadSegment_short hch h hshort]
      refine iff_of_false (show - EIO ≠ 0 by decide) fun hok => ?_
      exact absurd (hdata.mpr hok.data) (Nat.ne_of_lt hshort)
    · rw [loadSegment_full hch h hfull]
      exact iff_of_true rfl ⟨hstart, hend, hsize, hdata.mp hfull⟩
  · rw [loadSegment, if_neg hch]
    exact iff_of_false (show -EINVAL ≠ 0 by decide) fun hok => hch hok.checked

/-- The data of a segment in order. -/
theorem Phdr.Ok.read (h : ph.Ok file) :
    ph.filesz.toNat < 2 ^ 63 ∧
      (ioreadat file ph.offset ph.filesz).2 = (file.drop ph.offset.toNat).take ph.filesz.toNat ∧
      ph.got file = ph.filesz.toNat := by
  have hlt : ph.filesz.toNat < 2 ^ 63 := by
    have hstop := h.stop
    have hsize := h.size
    simp only [Memory.umemEnd] at hstop
    omega
  rcases h.data with hz | hdata
  · have hnil : (ioreadat file ph.offset ph.filesz).2 = [] := by
      apply List.eq_nil_of_length_eq_zero
      have hle := ioreadat_length_le file ph.offset ph.filesz
      omega
    rw [Phdr.got, hnil, hz]
    exact ⟨by decide, rfl, rfl⟩
  · have hbytes := ioreadat_bytes hlt hdata
    refine ⟨hlt, hbytes, ?_⟩
    rw [Phdr.got, hbytes, List.length_take, List.length_drop]
    omega

/-- What is written for a segment in order. -/
theorem applyAll_loadSegment (h : ph.Ok file) (m : ByteMem) :
    MemWrite.applyAll (loadSegment file ph).2 m = ph.place file m := by
  obtain ⟨hlt, hbytes, hgot⟩ := h.read
  have hstop := h.stop
  have hsize := h.size
  have hend : Memory.umemEnd < 2 ^ 64 := by decide
  have hfill : (ph.memsz - ph.filesz).toNat = ph.memsz.toNat - ph.filesz.toNat :=
    BitVec.toNat_sub_of_le (by rw [BitVec.le_def]; exact hsize)
  have hbegin : (ph.vaddr + ph.filesz).toNat = ph.vaddr.toNat + ph.filesz.toNat := by
    rw [BitVec.toNat_add]
    omega
  rw [loadSegment_full h.checked hlt hgot, MemWrite.applyAll, List.foldl_append]
  change MemWrite.applyAll _ (MemWrite.applyAll _ m) = _
  rw [applyAll_ite, applyAll_ite]
  · funext a
    -- the zeros are behind the data
    have hzero : (MemWrite.zero (ph.vaddr + ph.filesz) (ph.memsz - ph.filesz).toNat).Covers a ↔
        ph.vaddr.toNat + ph.filesz.toNat ≤ a.toNat ∧ a.toNat < ph.vaddr.toNat + ph.memsz.toNat := by
      rw [covers_iff (by rw [MemWrite.start, MemWrite.size, hbegin, hfill]; omega), MemWrite.start,
        MemWrite.size, hbegin, hfill]
      omega
    have hcopy : (MemWrite.copy ph.vaddr (ioreadat file ph.offset ph.filesz).2).Covers a ↔
        ph.vaddr.toNat ≤ a.toNat ∧ a.toNat < ph.vaddr.toNat + ph.filesz.toNat := by
      have hlen : (ioreadat file ph.offset ph.filesz).2.length = ph.filesz.toNat := hgot
      rw [covers_iff (by rw [MemWrite.start, MemWrite.size, hlen]; omega), MemWrite.start,
        MemWrite.size, hlen]
    have hhas : ph.Has a ↔ ph.vaddr.toNat ≤ a.toNat ∧ a.toNat < ph.vaddr.toNat + ph.memsz.toNat :=
      Iff.rfl
    rw [Phdr.place, MemWrite.apply, MemWrite.apply]
    by_cases hz : ph.vaddr.toNat + ph.filesz.toNat ≤ a.toNat ∧
        a.toNat < ph.vaddr.toNat + ph.memsz.toNat
    · rw [if_pos (hzero.mpr hz), if_pos (hhas.mpr (by omega)), if_neg (by omega)]
      rfl
    rw [if_neg fun hc => hz (hzero.mp hc)]
    by_cases hc : ph.vaddr.toNat ≤ a.toNat ∧ a.toNat < ph.vaddr.toNat + ph.filesz.toNat
    · have hsub : (a - ph.vaddr).toNat = a.toNat - ph.vaddr.toNat :=
        BitVec.toNat_sub_of_le (by rw [BitVec.le_def]; exact hc.1)
      rw [if_pos (hcopy.mpr hc), if_pos (hhas.mpr (by omega)), if_pos (by omega), MemWrite.start, hsub,
        MemWrite.byte, hbytes, List.getD_eq_getElem?_getD, List.getElem?_take_of_lt (by omega),
        List.getElem?_drop, ← List.getD_eq_getElem?_getD]
    · rw [if_neg fun hcov => hc (hcopy.mp hcov), if_neg fun hin => ?_]
      have := hhas.mp hin
      omega
  · intro hnot
    rw [BitVec.lt_def] at hnot
    show List.length _ = 0
    rw [show List.length _ = _ from hgot]
    exact Nat.eq_zero_of_not_pos hnot
  · intro hnot
    rw [BitVec.lt_def] at hnot
    rw [MemWrite.size, hfill]
    omega

/-! ## The loop -/

/-- Program header `i` lies in the file. -/
def Readable (file : File) (phoff : Word) (i : Nat) : Prop :=
  phdrPos phoff i + phdrSize ≤ file.length

theorem readPhdr_full (file : File) (phoff : Word) (i : Nat) :
    (readPhdr file phoff i).1 = phdrSize ↔ Readable file phoff i :=
  ioreadat_full file _ (n := BitVec.ofNat 64 phdrSize) (by decide) (by decide)

theorem phdrOf_readPhdr {i : Nat} (h : Readable file phoff i) :
    phdrOf (readPhdr file phoff i).2 = phdrAt file phoff i := by
  have hbytes := ioreadat_bytes (n := BitVec.ofNat 64 phdrSize) (by decide) h
  rw [readPhdr, hbytes]
  rfl

/-- The segments among the headers from `i` on, `n` headers. -/
def segmentsFrom (file : File) (phoff : Word) (n i : Nat) : List Phdr :=
  ((List.range' i n).map (phdrAt file phoff)).filter fun ph => ph.type = ptLoad

theorem segmentsFrom_succ (file : File) (phoff : Word) (n i : Nat) :
    segmentsFrom file phoff (n + 1) i =
      if (phdrAt file phoff i).type = ptLoad
      then phdrAt file phoff i :: segmentsFrom file phoff n (i + 1)
      else segmentsFrom file phoff n (i + 1) := by
  rw [segmentsFrom, List.range'_succ, List.map_cons, List.filter_cons]
  simp only [decide_eq_true_eq]
  rfl

section Loop

variable {n i : Nat}
  (hwrap : ∀ j, i ≤ j → j < i + n → Readable file phoff j → (phdrAt file phoff j).type = ptLoad →
    (phdrAt file phoff j).vaddr.toNat + (phdrAt file phoff j).memsz.toNat < 2 ^ 64)

include hwrap

/-- The loop succeeds when all headers can be read and all segments are in order. -/
theorem loadLoop_eq_zero :
    (loadLoop file phoff n i).1 = 0 ↔
      (∀ j, i ≤ j → j < i + n → Readable file phoff j) ∧
        ∀ ph ∈ segmentsFrom file phoff n i, ph.Ok file := by
  induction n generalizing i with
  | zero => exact iff_of_true rfl ⟨fun j hi hj => by omega, fun ph hph => nomatch hph⟩
  | succ n ih =>
    have ih := ih (i := i + 1) fun j hi hj => hwrap j (by omega) (by omega)
    rw [loadLoop]
    by_cases hread : Readable file phoff i
    · have hall : (∀ j, i ≤ j → j < i + (n + 1) → Readable file phoff j) ↔
          ∀ j, i + 1 ≤ j → j < i + 1 + n → Readable file phoff j := by
        refine ⟨fun h j hi hj => h j (by omega) (by omega), fun h j hi hj => ?_⟩
        rcases Nat.eq_or_lt_of_le hi with rfl | hlt
        · exact hread
        · exact h j hlt (by omega)
      simp only [(readPhdr_full file phoff i).mpr hread, ne_eq, not_true_eq_false, if_false,
        phdrOf_readPhdr hread]
      rw [hall, segmentsFrom_succ]
      by_cases htype : (phdrAt file phoff i).type = ptLoad
      · have hseg := loadSegment_eq_zero file
          (hwrap i (Nat.le_refl i) (by omega) hread htype)
        rw [if_neg (not_not.mpr htype), if_pos htype, List.forall_mem_cons]
        by_cases hz : (loadSegment file (phdrAt file phoff i)).1 = 0
        · rw [if_neg (not_not.mpr hz), ih, and_iff_right (hseg.mp hz)]
        · rw [if_pos hz]
          exact iff_of_false hz fun h => hz (hseg.mpr h.2.1)
      · rw [if_pos htype, if_neg htype, ih]
    · simp only [ne_eq, (readPhdr_full file phoff i).not.mpr hread, not_false_eq_true, if_true]
      exact iff_of_false (by decide) fun h => hread (h.1 i (Nat.le_refl i) (by omega))

/-- What the loop leaves in memory. -/
theorem applyAll_loadLoop (h : (loadLoop file phoff n i).1 = 0) (m : ByteMem) :
    MemWrite.applyAll (loadLoop file phoff n i).2 m =
      (segmentsFrom file phoff n i).foldl (Phdr.place file) m := by
  induction n generalizing i m with
  | zero => rfl
  | succ n ih =>
    have hall := (loadLoop_eq_zero hwrap).mp h
    have hread := hall.1 i (Nat.le_refl i) (by omega)
    have ih := ih (i := i + 1) fun j hi hj => hwrap j (by omega) (by omega)
    have hnext : (loadLoop file phoff n (i + 1)).1 = 0 := by
      rw [loadLoop_eq_zero fun j hi hj => hwrap j (by omega) (by omega)]
      refine ⟨fun j hi hj => hall.1 j (by omega) (by omega), fun ph hph => hall.2 ph ?_⟩
      rw [segmentsFrom_succ]
      split
      · exact .tail _ hph
      · exact hph
    rw [loadLoop]
    simp only [(readPhdr_full file phoff i).mpr hread, ne_eq, not_true_eq_false, if_false,
      phdrOf_readPhdr hread]
    rw [segmentsFrom_succ]
    by_cases htype : (phdrAt file phoff i).type = ptLoad
    · have hok : (phdrAt file phoff i).Ok file := by
        refine hall.2 _ ?_
        rw [segmentsFrom_succ, if_pos htype]
        exact .head _
      have hz := (loadSegment_eq_zero file (hwrap i (Nat.le_refl i) (by omega) hread htype)).mpr hok
      rw [if_neg (not_not.mpr htype), if_neg (not_not.mpr hz), if_pos htype, List.foldl_cons,
        ← applyAll_loadSegment hok m, ← ih hnext]
      exact List.foldl_append ..
    · rw [if_pos htype, if_neg htype]
      exact ih hnext m

end Loop

/-- The segments of a file. -/
def segments (file : File) : List Phdr :=
  segmentsFrom file (header file).phoff (header file).phnum 0

/-- The file has a valid header, all its program headers can be read, and all its segments are in
order. -/
structure Loadable (file : File) : Prop where
  size : ehdrSize ≤ file.length
  valid : (header file).Valid
  headers : ∀ i < (header file).phnum, Readable file (header file).phoff i
  segments : ∀ ph ∈ segments file, ph.Ok file

/-- On a file in which the end of no segment wraps around, `elf_load` returns 0 exactly when the
file is loadable.  It then gives the entry point, and the memory is the old one with the segments
placed in it in the order of their headers; addresses in no segment are unchanged. -/
theorem elfLoad_correct {file : File}
    (hwrap : ∀ i < (header file).phnum, Readable file (header file).phoff i →
      (phdrAt file (header file).phoff i).type = ptLoad →
      (phdrAt file (header file).phoff i).vaddr.toNat +
        (phdrAt file (header file).phoff i).memsz.toNat < 2 ^ 64) :
    ((elfLoad file).rc = 0 ↔ Loadable file) ∧
      ((elfLoad file).rc = 0 → (elfLoad file).entry = some (header file).entry ∧ ∀ m : ByteMem,
        MemWrite.applyAll (elfLoad file).writes m = (segments file).foldl (Phdr.place file) m ∧
          ∀ a, (∀ ph ∈ segments file, ¬ ph.Has a) →
            MemWrite.applyAll (elfLoad file).writes m a = m a) := by
  by_cases hhdr : ehdrSize ≤ file.length ∧ (header file).Valid
  · obtain ⟨hlen, hvalid⟩ := hhdr
    rw [elfLoad_valid hlen hvalid]
    have hloop : ∀ j, 0 ≤ j → j < 0 + (header file).phnum → _ := fun j _ hj =>
      hwrap j (by omega)
    have hiff := loadLoop_eq_zero hloop
    refine ⟨⟨fun hz => ?_, fun hok => ?_⟩, fun hz => ⟨if_pos hz, fun m => ?_⟩⟩
    · obtain ⟨hread, hseg⟩ := hiff.mp hz
      exact ⟨hlen, hvalid, fun i hi => hread i (Nat.zero_le i) (by omega), hseg⟩
    · exact hiff.mpr ⟨fun j _ hj => hok.headers j (by omega), hok.segments⟩
    · have happly := applyAll_loadLoop hloop hz m
      refine ⟨happly, fun a ha => ?_⟩
      rw [happly]
      exact foldl_place_of_not_has ha
  · have hne := (elfLoad_invalid hhdr).1
    exact ⟨iff_of_false hne fun hok => hhdr ⟨hok.size, hok.valid⟩, fun hz => absurd hz hne⟩

/-- A file with one segment, whose data is the first four bytes of the file. -/
def oneSegment : File := headersOnly 0xC0001000 [⟨ptLoad, 0, 0xC0001000, 4, 0x1000⟩]

theorem elfLoad_correct_oneSegment :
    (elfLoad oneSegment).entry = some 0xC0001000 ∧ Loadable oneSegment ∧ ∀ m : ByteMem,
      MemWrite.applyAll (elfLoad oneSegment).writes m 0xC0001001 = 'E'.toUInt8 := by
  have hnum : (header oneSegment).phnum = 1 := by decide +kernel
  have hseg : segments oneSegment = [⟨ptLoad, 0, 0xC0001000, 4, 0x1000⟩] := by decide +kernel
  have hcorrect := @elfLoad_correct oneSegment fun i hi _ _ => by
    rw [hnum, Nat.lt_one_iff] at hi
    subst hi
    decide +kernel
  have hrc : (elfLoad oneSegment).rc = 0 := by decide +kernel
  obtain ⟨hentry, hmem⟩ := hcorrect.2 hrc
  refine ⟨hentry.trans (by decide +kernel), hcorrect.1.mp hrc, fun m => ?_⟩
  rw [(hmem m).1, hseg]
  rfl

end MiniOs.Elf
