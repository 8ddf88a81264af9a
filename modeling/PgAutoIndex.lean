import PgAutoIndex.Runs
import PgAutoIndex.LinearProbing
import PgAutoIndex.RentOrBuy
import PgAutoIndex.Kleene
import PgAutoIndex.Bytes
import PgAutoIndex.AutoIndex.Table
import PgAutoIndex.AutoIndex.TableMap
import PgAutoIndex.AutoIndex.DrainSums
import PgAutoIndex.AutoIndex.Ring
import PgAutoIndex.AutoIndex.RingPositions
import PgAutoIndex.AutoIndex.RingHandover
import PgAutoIndex.AutoIndex.RingDrops
import PgAutoIndex.AutoIndex.Catalog
import PgAutoIndex.AutoIndex.Advisor
import PgAutoIndex.AutoIndex.AdvisorPass
import PgAutoIndex.AutoIndex.AdvisorOutcomes
import PgAutoIndex.AutoIndex.AdvisorTriggers
import PgAutoIndex.AutoIndex.Eviction
import PgAutoIndex.AutoIndex.SkiRental
import PgAutoIndex.AutoIndex.Isolation
import PgAutoIndex.AutoIndex.Lifecycle
import PgAutoIndex.AutoIndex.LifecycleSafety
import PgAutoIndex.Optimizer.PrepQual
import PgAutoIndex.Pgbench.Permute
import PgAutoIndex.Gin.PostingUpdates
import PgAutoIndex.Transam.GenericXlog
import PgAutoIndex.Transam.XlogInsert
import PgAutoIndex.Ipc.SinvalQueue
import PgAutoIndex.Ipc.SinvalInvariant
import PgAutoIndex.Ipc.SinvalCleanup
import PgAutoIndex.Ipc.SinvalDelivery
import PgAutoIndex.BackCopy
import PgAutoIndex.Common.PgLzcompress
import PgAutoIndex.Common.PglzHistory
import PgAutoIndex.Common.PglzRoundTrip
import PgAutoIndex.Common.PglzBounds
import PgAutoIndex.BinarySearch
import PgAutoIndex.Lib.Simple8b
import PgAutoIndex.Lib.IntegerSet
import PgAutoIndex.Lib.IntegerSetTree
import PgAutoIndex.Lib.IntegerSetAdd
import PgAutoIndex.Lib.IntegerSetRefines
import PgAutoIndex.Nbtree.Dedup
import PgAutoIndex.Nbtree.DedupReplay
import PgAutoIndex.Freespace.FreeSpaceMap
import PgAutoIndex.Freespace.FsmVacuum
import PgAutoIndex.Freespace.FsmSearch
import PgAutoIndex.Lib.Knapsack
import PgAutoIndex.Adt.Timestamp
import PgAutoIndex.Common.Wchar
import PgAutoIndex.Adt.Lltoa
import PgAutoIndex.Hash.HashSplit
import PgAutoIndex.Heap.PruneHeap
import PgAutoIndex.Commands.SequenceHistory
import PgAutoIndex.Lib.BipartiteMatchMaximum
import PgAutoIndex.Lib.SimpleHashRefines
import PgAutoIndex.Common.BlkRefTableBlocks
import PgAutoIndex.Common.BlkRefTableRoundTrip
import PgAutoIndex.Adt.LikeMatchCorrect
import PgAutoIndex.Adt.MultirangeAlgebra
import PgAutoIndex.Lmgr.ConditionVariableWakeups
import PgAutoIndex.Adt.Encode
