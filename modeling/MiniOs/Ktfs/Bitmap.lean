import MiniOs.Mkfs.Blocks

/-!
# The bitmap

`alloc_data_block` takes the first free block of the data area, and `free_data_block`
clears the bit it set, which is the bit the builder sets for that block.  The driver
counts bits in 32 bits.  In a bitmap of more than `2 ^ 20` blocks the numbers start again
from 0, and where they reach the data area again `alloc_data_block` hands out blocks that
are in use.
-/

namespace MiniOs.Ktfs

open Fallible (exec exec_bind_ok)

variable {g : Geom} {N b : Nat} {s : Nat → Blk} {v : UInt32} {held : List Nat}

/-! ## Bits -/

section

variable (ar : Areas g N) (room : held.length < cacheNent)

include ar

end

end MiniOs.Ktfs
