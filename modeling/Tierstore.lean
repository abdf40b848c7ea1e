import Tierstore.Aborted
import Tierstore.Acknowledged
import Tierstore.Authority
import Tierstore.Cache
import Tierstore.Catalogue
import Tierstore.Codec
import Tierstore.Converge
import Tierstore.Disk.Crash
import Tierstore.Disk.KeyMap
import Tierstore.Disk.Overlap
import Tierstore.Disk.Range
import Tierstore.Encoded
import Tierstore.Facade
import Tierstore.GateSteps
import Tierstore.KeyByKey
import Tierstore.Limited
import Tierstore.Listing
import Tierstore.MemoryOrder
import Tierstore.Mmap.Crash
import Tierstore.Mmap.Durable
import Tierstore.Mmap.Faults
import Tierstore.Mmap.Fresh
import Tierstore.Mmap.SameOrder
import Tierstore.Mmap.Wrap
import Tierstore.Nesting
import Tierstore.Offload
import Tierstore.OffloadTier
import Tierstore.OneHolder
import Tierstore.OneLoad
import Tierstore.Origin
import Tierstore.QueueBound
import Tierstore.ReadLoss
import Tierstore.ReadPaths
import Tierstore.Remove
import Tierstore.Residue
import Tierstore.Service
import Tierstore.SlotMmap.Restart
import Tierstore.SlotMmap.Rollover
import Tierstore.Spelling
import Tierstore.Stats
import Tierstore.Store
import Tierstore.Verified
import Tierstore.Weights
