import ArcSwap.Concurrent.Machine
import ArcSwap.ProtocolRun
import ArcSwap.CallStack
import ArcSwap.Deliveries
import ArcSwap.Writes
import ArcSwap.Helping
import ArcSwap.Linear
import ArcSwap.FirstRead
import ArcSwap.Generation
import ArcSwap.Candidate
import ArcSwap.Rounds
import ArcSwap.Exchange
import ArcSwap.Quiescent
import ArcSwap.RwLock.Protected
import ArcSwap.RwLock.Exchange
import ArcSwap.Caching
import ArcSwap.Concurrent.Trace
import ArcSwap.Registry.Handover
import ArcSwap.Registry.Shares
import ArcSwap.Registry.Fallbacks
import ArcSwap.Sequential.Pointers
import ArcSwap.Sequential.Accesses
