import VmmSim.Lib.BitField
import VmmSim.Lib.Count
import VmmSim.Lib.Run
import VmmSim.Lib.Wp
import VmmSim.Lib.Follow
import VmmSim.Pte
import VmmSim.State
import VmmSim.Resident
import VmmSim.WorkingSet
import VmmSim.Tables
import VmmSim.Alloc
import VmmSim.Trim
import VmmSim.Wire
import VmmSim.Fault
import VmmSim.PageWriter
import VmmSim.Boot
import VmmSim.System
import VmmSim.Queues
import VmmSim.Narrow
import VmmSim.Conservation
import VmmSim.Shortage
import VmmSim.PteFormat
import VmmSim.Core
import VmmSim.Invariant
import VmmSim.Move
import VmmSim.MoveDirs
import VmmSim.MoveLeaves
import VmmSim.MoveCounts
import VmmSim.MoveMirror
import VmmSim.MoveSlots
import VmmSim.MoveInv
import VmmSim.Moves
import VmmSim.Effects
import VmmSim.Stealing
import VmmSim.Trimming
import VmmSim.Unwiring
import VmmSim.Wiring
import VmmSim.Faults
import VmmSim.DrumSlots
import VmmSim.Transfers
import VmmSim.Standing
import VmmSim.Stepping
import VmmSim.Reach
import VmmSim.Consistency
import VmmSim.Reclaim
import VmmSim.Reading
import VmmSim.Pinned
import VmmSim.Lib.SearchTree
import VmmSim.Vads
import VmmSim.WslOrder
import VmmSim.PagefileAlloc
import VmmSim.Walks
import VmmSim.Rewiring
import VmmSim.Access
import VmmSim.MdlContract
import VmmSim.TrimFifo
import VmmSim.SlotOwners
import VmmSim.Saving
import VmmSim.Blank
import VmmSim.Contents
import VmmSim.Permission
import VmmSim.Held
import VmmSim.Refault
import VmmSim.Cleaning
import VmmSim.Balancer
