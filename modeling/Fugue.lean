import Fugue.Library.Pool
import Fugue.Library.Slots
import Fugue.Library.Run
import Fugue.StoredRecords
import Fugue.RequestRouting
import Fugue.TxnIDGenerator
import Fugue.CommitTimestamps
import Fugue.ExecutorAgreement
import Fugue.RequestNotification
import Fugue.OperationFlight
import Fugue.CounterRelease
import Fugue.RequestProgress
import Fugue.CommitProposal
import Fugue.TimeProvider
import Fugue.PublishedResults
import Fugue.VersionChain
import Fugue.ConflictPlacement
import Fugue.SerializedSize
import Fugue.LaunchReads
import Fugue.CountedTransactions
import Fugue.WriteSetStream
import Fugue.EntryPools
import Fugue.OwnConflict
import Fugue.ConflictOrder
import Fugue.TransactionTable
import Fugue.HonestRun
import Fugue.LaunchBlocking
