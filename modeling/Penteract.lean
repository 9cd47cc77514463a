import Penteract.TxnHolder
import Penteract.LockEquivalence
import Penteract.LogReplication
import Penteract.Server
import Penteract.AbortedTransactions
import Penteract.JanusReads
import Penteract.JanusOrder
import Penteract.JanusDispatchOrder
import Penteract.Placement
import Penteract.TableTransactions
import Penteract.OrderLines
import Penteract.HistoryIds
import Penteract.BenchXExecution
import Penteract.PaxosInstances
import Penteract.RemasterOrder
import Penteract.PerKeyRemasterQueues
import Penteract.LockInvariant
import Penteract.FutureTransactions
import Penteract.MasterCounters
import Penteract.WaitedByLists
import Penteract.ConcurrentHashMap
