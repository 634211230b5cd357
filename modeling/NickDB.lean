import NickDB.Support.Linked
import NickDB.Support.Runs
import NickDB.Support.Loops
import NickDB.Support.ByteFile
import NickDB.Support.Words
import NickDB.Support.FifoStore
import NickDB.Support.Rings
import NickDB.Support.ListFamily
import NickDB.Support.RingFamily
import NickDB.Support.SlotChains
import NickDB.Support.HandleTable
import NickDB.Support.NamedStores
import NickDB.Constants
import NickDB.Store.Posix
import NickDB.Store.Model
import NickDB.Store.Paging
import NickDB.Store.Calls
import NickDB.Store.Freelist
import NickDB.Store.Wellformed
import NickDB.Store.Session
import NickDB.Store.Refinement
import NickDB.Store.Blank
import NickDB.Store.InUse
import NickDB.Store.DoubleFree
import NickDB.Store.ExistingPages
import NickDB.Store.Extent
import NickDB.Store.FreedPages
import NickDB.Store.Reuse
import NickDB.Store.BlankAllocation
import NickDB.Store.Metadata
import NickDB.Store.Failures
import NickDB.Store.FreeFailure
import NickDB.Store.AllocFailure
import NickDB.Store.Completed
import NickDB.Store.Allocated
import NickDB.Store.SecondAllocation
import NickDB.Store.Addressing
import NickDB.Store.AllocExits
import NickDB.Store.FileSystem
import NickDB.Store.Lifecycle
import NickDB.Store.Reopening
import NickDB.Buffer.Model
import NickDB.Buffer.Calls
import NickDB.Buffer.Writeback
import NickDB.Buffer.Session
import NickDB.Buffer.Lists
import NickDB.Buffer.Creation
import NickDB.Buffer.Aliasing
import NickDB.Buffer.Pins
import NickDB.Buffer.HeadFrame
import NickDB.Buffer.Versions
import NickDB.Buffer.Coherence
import NickDB.Buffer.Durability
import NickDB.Buffer.Restart
import NickDB.Buffer.FreePages
import NickDB.Buffer.Capacity
import NickDB.Buffer.PinFailure
import NickDB.Buffer.Lookup
import NickDB.Buffer.Unpin
import NickDB.Buffer.Flush
import NickDB.Buffer.Termination
import NickDB.Buffer.FreeFrame
import NickDB.Buffer.AllocFrame
import NickDB.Buffer.OneFrame
import NickDB.Buffer.OneFrameTraces
import NickDB.Buffer.OnePage
import NickDB.Buffer.Exhaustion
import NickDB.Btree.Model
import NickDB.Btree.Nodes
import NickDB.Btree.Create
import NickDB.Btree.Release
import NickDB.Btree.Separators
import NickDB.Btree.Persistence
import NickDB.Btree.Scan
import NickDB.Btree.Keys
import NickDB.LinkedList.Model
import NickDB.LinkedList.Joins
import NickDB.LinkedList.Lists
import NickDB.LinkedList.Refinement
import NickDB.LinkedList.Traversal
import NickDB.LinkedList.Sessions
import NickDB.LinkedList.Removal
import NickDB.LinkedList.Hlist
import NickDB.LinkedList.HlistPuts
import NickDB.LinkedList.HlistLists
import NickDB.LinkedList.HlistRefinement
import NickDB.LinkedList.HlistSessions
import NickDB.LinkedList.HlistRemoval
