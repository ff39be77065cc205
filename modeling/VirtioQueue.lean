import VirtioQueue.Defs
import VirtioQueue.GuestMemory
import VirtioQueue.Queue
import VirtioQueue.AvailIter
import VirtioQueue.Ops
import VirtioQueue.Notification
import VirtioQueue.Address
import VirtioQueue.Footprint
import VirtioQueue.UsedRing
import VirtioQueue.Validity
import VirtioQueue.Wakeup
import VirtioQueue.Drain
import VirtioQueue.Serve
import VirtioQueue.Device
import VirtioQueue.Channels
import VirtioQueue.Transfer
import VirtioQueue.Publication
import VirtioQueue.Interrupt
import VirtioQueue.Restore
