import Lockfreec.Basic.FreelistConservation
import Lockfreec.Basic.StackLinearizable
import Lockfreec.Mwcas.GcReclaim
import Lockfreec.Hash.BasicHashTableMap
import Lockfreec.Advance.BinaryTree
import Lockfreec.Basic.RingConservation
import Lockfreec.Basic.RingSequential
import Lockfreec.Basic.Constructors
import Lockfreec.Basic.SlistData
import Lockfreec.Basic.SlistDestroy
import Lockfreec.Bench.LockingDeadlock
import Lockfreec.Bench.LockingSerializable
import Lockfreec.Bench.RowMvccVersions
import Lockfreec.Bench.PlockInvariant
import Lockfreec.Bench.VllExclusion
import Lockfreec.Bench.RowTsDrain
import Lockfreec.Bench.OccCentralReads
import Lockfreec.Bench.OccRowSerial
import Lockfreec.Advance.MemTrieFailure
import Lockfreec.Basic.SlistTraverse
import Lockfreec.Bench.ValidationExclusion
import Lockfreec.Advance.NodePool
import Lockfreec.Hash.LevelTable
import Lockfreec.Advance.HashMapSequential
import Lockfreec.Bench.TictocWord
import Lockfreec.Advance.BitVector
import Lockfreec.Bench.Timestamps
import Lockfreec.Bench.NewOrder
