import MiniOs.Io.Device

/-!
# The block cache (`cache.c`)

A cache is a table of `CACHE_NENT` entries in front of a device.  The pointer
`cache_get_block` hands out is the address of an entry's data, so it is modelled by
the index of the entry, its *slot*.  A client reads and writes the data of a slot
it was given, and hands the slot back to `cache_release_block`.
-/

namespace MiniOs

/-- `CACHE_NENT`. -/
abbrev cacheNent : Nat := 128

/-- An index into the entry table, and so a pointer to an entry's data. -/
abbrev Slot := Fin cacheNent

/-- `struct cache_entry`. -/
structure CacheEntry where
  /-- Backing-device byte offset. -/
  pos : Nat
  /-- The entry is occupied. -/
  valid : Bool
  /-- Outstanding `cache_get_block` references. -/
  refcnt : Nat
  /-- The entry needs write-back. -/
  dirty : Bool
  data : Blk

/-- `struct cache`: the entries, and the state of the backing device. -/
structure Cache (σ : Type) where
  ents : Slot → CacheEntry
  dev : σ

/-- `CACHE_CLEAN` and `CACHE_DIRTY`. -/
inductive ReleaseFlag where
  | clean
  | dirty
deriving DecidableEq

namespace Cache

variable {σ : Type}

/-- The cache with entry `i` replaced. -/
def setEnt (c : Cache σ) (i : Slot) (e : CacheEntry) : Cache σ :=
  { c with ents := Function.update c.ents i e }

/-- `create_cache`, where the allocations succeed: `kcalloc` clears every entry. -/
def create (dev : σ) : Cache σ where
  ents _ := { pos := 0, valid := false, refcnt := 0, dirty := false, data := Block.zero }
  dev := dev

/-- `find_entry`. -/
def findEntry (c : Cache σ) (pos : Nat) : Option Slot :=
  (List.finRange cacheNent).find? fun i => (c.ents i).valid && (c.ents i).pos == pos

/-- `pick_victim`: a free slot, else an unheld clean one, else an unheld one. -/
def pickVictim (c : Cache σ) : Option Slot :=
  ((List.finRange cacheNent).find? fun i => !(c.ents i).valid) <|>
  ((List.finRange cacheNent).find? fun i => (c.ents i).refcnt == 0 && !(c.ents i).dirty) <|>
  ((List.finRange cacheNent).find? fun i => (c.ents i).refcnt == 0)

/-- `writeback`. -/
def writeback (d : Device σ) (c : Cache σ) (i : Slot) : Int × Cache σ :=
  let e := c.ents i
  if !e.valid || !e.dirty then (0, c)
  else
    let (n, dev) := d.writeat c.dev e.pos e.data
    let c := { c with dev := dev }
    if n ≠ 512 then (cInt n, c) else (0, c.setEnt i { e with dirty := false })

/-- `cache_get_block`: the result code and, where it was set, `*pptr`. -/
def getBlock (d : Device σ) (c : Cache σ) (pos : Nat) : Int × Option Slot × Cache σ :=
  if pos % blksz ≠ 0 then (-EINVAL, none, c)
  else
    match c.findEntry pos with
    | some i => (0, some i, c.setEnt i { c.ents i with refcnt := (c.ents i).refcnt + 1 })
    | none =>
      match c.pickVictim with
      | none => (-ENOMEM, none, c)
      | some i =>
        let (rc, c) := if (c.ents i).valid then c.writeback d i else (0, c)
        if rc ≠ 0 then (rc, none, c)
        else
          let (n, data, dev) := d.readat c.dev pos (c.ents i).data
          -- the buffer of the victim is filled whatever the read returns
          let c := { c.setEnt i { c.ents i with data := data } with dev := dev }
          if n ≠ 512 then (cInt n, none, c)
          else
            (0, some i,
              c.setEnt i { c.ents i with pos := pos, valid := true, dirty := false, refcnt := 1 })

/-- `cache_release_block`: the entry whose data the pointer addresses is the slot
itself, and an invalid one is ignored. -/
def releaseBlock (c : Cache σ) (i : Slot) (flag : ReleaseFlag) : Cache σ :=
  let e := c.ents i
  if !e.valid then c
  else
    c.setEnt i
      { e with
        dirty := if flag = .dirty then true else e.dirty
        refcnt := if 0 < e.refcnt then e.refcnt - 1 else e.refcnt }

/-- The loop of `cache_flush` over the entries `is`. -/
def flushLoop (d : Device σ) (c : Cache σ) : List Slot → Int × Cache σ
  | [] => (0, c)
  | i :: is =>
      let (rc, c) := c.writeback d i
      if rc ≠ 0 then (rc, c) else flushLoop d c is

/-- `cache_flush`. -/
def flush (d : Device σ) (c : Cache σ) : Int × Cache σ :=
  c.flushLoop d (List.finRange cacheNent)

/-- A client's write into the data of a slot. -/
def writeData (c : Cache σ) (i : Slot) (data : Blk) : Cache σ :=
  c.setEnt i { c.ents i with data := data }

/-- The logical content of block `b`: the data of the valid entry that holds its
position, or the backing block if none does. -/
def logical (content : σ → Nat → Blk) (c : Cache σ) (b : Nat) : Blk :=
  match c.findEntry (blksz * b) with
  | some i => (c.ents i).data
  | none => content c.dev b

end Cache

end MiniOs
