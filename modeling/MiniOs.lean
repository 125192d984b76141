import MiniOs.User.Input
import MiniOs.User.Heap
import MiniOs.Cache.Refinement
import MiniOs.Cache.Pinning
import MiniOs.Ktfs.Durability
import MiniOs.Ktfs.Handles
import MiniOs.Ktfs.SetEnd
import MiniOs.Mkfs.Reclaim
import MiniOs.Mkfs.Resolution
import MiniOs.Ktfs.Bitmap
import MiniOs.Thread.Locks
import MiniOs.Thread.Fifo
import MiniOs.Thread.NoChildren
import MiniOs.Pipe.Blocking
import MiniOs.Timer.WakeUp
import MiniOs.Timer.Duration
import MiniOs.Uart.Rings
import MiniOs.Uart.Arming
import MiniOs.Virtio.Rng
import MiniOs.Virtio.Serialize
import MiniOs.Memory.CloneCost
import MiniOs.Proc.Fork
import MiniOs.Proc.Refcount
import MiniOs.Proc.ActiveSpace
import MiniOs.Proc.ExecImage
import MiniOs.Proc.PipeSlots
