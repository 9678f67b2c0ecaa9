import EpochQueue.Contest.Exchange
import EpochQueue.Contest.Traffic
import EpochQueue.Fifo.Moves
import EpochQueue.Lock.Contention
import EpochQueue.Lock.Desk
import EpochQueue.Reclaim.OrphanList
import EpochQueue.Script.Session
import EpochQueue.Proofs.Reclaim.Collection
import EpochQueue.Proofs.Reclaim.Conservation
import EpochQueue.Proofs.Reclaim.Handover
import EpochQueue.Proofs.Reclaim.LatePins
import EpochQueue.Proofs.Reclaim.Occupancy
import EpochQueue.Proofs.Reclaim.Partition
import EpochQueue.Proofs.Reclaim.Tenancy
import EpochQueue.Proofs.Reclaim.Protection
import EpochQueue.Proofs.Reclaim.TwoFlushes
import EpochQueue.Proofs.Fifo.Linearization
import EpochQueue.Proofs.Fifo.Safety
import EpochQueue.Proofs.Fifo.Shape
import EpochQueue.Proofs.Fifo.Census
import EpochQueue.Proofs.Fifo.Custody
import EpochQueue.Proofs.Fifo.Emptiness
import EpochQueue.Proofs.Fifo.LockFreedom
import EpochQueue.Proofs.Fifo.SingleUser
import EpochQueue.Proofs.Lock.Rounds
import EpochQueue.Proofs.Script.Draining
import EpochQueue.Proofs.Script.Sweeps
import EpochQueue.Proofs.Fifo.Pauses
import EpochQueue.Proofs.Reclaim.Cadence
import EpochQueue.Proofs.Lock.Requests
import EpochQueue.Proofs.Reclaim.Overlap
import EpochQueue.Proofs.Contest.Exchange
import EpochQueue.Proofs.Contest.Traffic
