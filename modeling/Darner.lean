import Darner.AcknowledgedSets
import Darner.ChunkStore
import Darner.ChunkedItems
import Darner.CodecAccesses
import Darner.DeletedQueues
import Darner.Dialogues
import Darner.ErasedItems
import Darner.FlushAll
import Darner.GetReplies
import Darner.ItemCounts
import Darner.JournalFailures
import Darner.KeyCodec
import Darner.QueueFifo
import Darner.QueuePartition
import Darner.QueuePaths
import Darner.QueueRecovery
import Darner.ReliableFetch
import Darner.RequestFrame
import Darner.RequestFraming
import Darner.SyncedSets
import Darner.WaitTimeouts
import Darner.WaiterIterators
