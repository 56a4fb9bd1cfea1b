import Membridge.Program
import Membridge.Interleaving
import Membridge.RelyGuarantee
import Membridge.ByteOrder
import Membridge.ByteReader
import Membridge.Utf8
import Membridge.Python
import Membridge.Mixed
import Membridge.CyclicBuffer
import Membridge.Queue
import Membridge.Segment
import Membridge.Spsc
import Membridge.SpscQueue
import Membridge.SpscProtocol
import Membridge.SpscInvariant
import Membridge.SpscCalls
import Membridge.SpscSound
import Membridge.SpscDelivery
import Membridge.SpscObservers
import Membridge.Occupancy
import Membridge.Typestate
import Membridge.RwLock
import Membridge.Exclusion
import Membridge.Guards
import Membridge.View
import Membridge.ViewRuns
import Membridge.Mapping
import Membridge.DecodeBounds
import Membridge.ViewBounds
import Membridge.Alone
import Membridge.Sessions
import Membridge.Encoding
import Membridge.Stream
import Membridge.CallShape
import Membridge.Snapshot
import Membridge.FailSafe
import Membridge.ViewFailures
import Membridge.RingAlone
import Membridge.RingFailures
import Membridge.Consumption
import Membridge.LengthPrefix
import Membridge.RingBounds
import Membridge.DecoderAgreement
import Membridge.CheckedDecoders
import Membridge.DecoderSafety
import Membridge.Posix
import Membridge.Namespace
import Membridge.Creators
import Membridge.Balance
import Membridge.Opening
import Membridge.SharedCursor
import Membridge.Bystanders
import Membridge.IndexWrap
import Membridge.BoundedCalls
import Membridge.Linearizability
import Membridge.WaitFree
import Membridge.SpscLinearizable
import Membridge.TypedMessages
import Membridge.Completion
import Membridge.ViewProgress
import Membridge.Batches
import Membridge.Reencoding
import Membridge.Win32
import Membridge.Windows
import Membridge.References
import Membridge.Incarnations
import Membridge.HappensBefore
import Membridge.SpscPositions
import Membridge.SpscRaces
import Membridge.LockRaces
import Membridge.WeakDelivery
import Membridge.RingEscapes
