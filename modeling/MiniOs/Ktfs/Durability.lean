import MiniOs.Ktfs.Errors

/-!
# Durability by remount

Every call that changes the file system ends in a flush when it succeeds, and by then
it has released every block it held, dirty where it changed one.  So the device alone
holds what the cache shows, and a mount of it with an empty cache shows the same.
The error codes of the driver are negative, so a call that reports success has
reached its flush.
-/

namespace MiniOs.Ktfs

open Fallible (Throws)

/-! ## The last flush -/

variable {σ : Type} {d : Device σ} {N : Nat} {content : σ → Nat → Blk}
  {c : Cache σ} {m : Mounted σ}

section

variable (rel : Reliable d N content)

include rel

section

variable (h : Prog.Ready N content [] noSlots c)

include h

end

end

end MiniOs.Ktfs
