import Fugue.Library.Run
import Fugue.Library.Slots
import Fugue.LocalState
import Mathlib.Logic.Function.Basic

namespace Fugue

/-- The operation objects of one execution; pooled ones are numbered by their position. -/
inductive Op
  | readOutside
  | upload
  | uploadVersionEntry (i : ℕ)
  | setCommitTs
  | validate
  | updateReadEntryMaxCommitTs (i : ℕ)
  | pushConflictTxnCommitTsLowerBound (i : ℕ)
  | writeToLog
  | updateTxnStatusToCommit
  | postProcessingAfterCommit
  | postProcessingCommitEntryAfterCommit (i : ℕ)
  | postProcessingAfterAbort
  | postProcessingDeleteEntryAfterAbort (i : ℕ)
  | releaseReadCounter
  | releaseReadCounterForEachEntry (i : ℕ)
  | updateTxnStatusToAbort
  | insert
  | upsert
  | update
  | delete
  | initTxn
  | readDataStore
  deriving DecidableEq

@[reducible] def Op.Result : Op → Type
  | .readOutside => VersionEntry × VersionEntry
  | .uploadVersionEntry _ => ℤ
  | .setCommitTs => ℤ
  | .updateReadEntryMaxCommitTs _ => VersionEntry
  | .pushConflictTxnCommitTsLowerBound _ => TxnEntry
  | .readDataStore => Option Addr
  | _ => Unit

def Op.defaultResult (op : Op) : op.Result := by cases op <;> exact default

structure Reply (V : Type) (op : Op) where
  isError : Bool
  result : op.Result
  copies : List (Addr × V)

inductive Event (K V : Type)
  | issued (op : Op) (call : HandlerCall K)
  | answered (op : Op) (call : HandlerCall K) (reply : Reply V op)

def Event.op {K V : Type} : Event K V → Op
  | .issued op _ => op
  | .answered op _ _ => op

inductive OperationRequest (K : Type)
  | begin
  | insert (key : SetKey K) (record : Option Addr)
  | update (key : SetKey K) (record : Option Addr)
  | upsert (key : SetKey K) (record : Option Addr)
  | delete (key : SetKey K)
  | read (key : SetKey K) (record : Option Addr)
  | readOutside (key : SetKey K) (record : Option Addr)
  | readDataStore (key : SetKey K) (record : Option Addr) (needToReadOutside : Bool)
  | commit
  | abort
  deriving DecidableEq

structure Result where
  record : Option Addr
  isDeleted : Bool
  isNull : Bool
  isError : Bool
  status : TxnStatus
  deriving DecidableEq

def Result.reset (record : Option Addr) : Result := ⟨record, false, false, false, .ongoing⟩

structure OperationFlags where
  moveToNext : Bool
  hasNext : Bool
  deriving DecidableEq

/-- The fields that the `Reset` functions of the operations store for the later calls. -/
structure OperationArgs (K : Type) where
  readOutsideKey : SetKey K
  readOutsideEntry : ℕ
  uploadSize : ℕ
  uploadEntry : ℕ → ℕ
  uploadVersion : ℕ → VersionEntry
  validateIndex : List ℕ
  rereadEntry : ℕ → ℕ
  pushTxnId : ℕ → ℤ
  commitIndex : List ℕ
  commitEntry : ℕ → ℕ
  deleteIndex : List ℕ
  deleteEntry : ℕ → ℕ
  releaseIndex : List ℕ
  releaseEntry : ℕ → ℕ
  writeKey : SetKey K
  writeRecord : Option Addr
  readDataStoreKey : SetKey K

def OperationArgs.init {K : Type} (key : SetKey K) : OperationArgs K where
  readOutsideKey := key
  readOutsideEntry := 0
  uploadSize := 0
  uploadEntry _ := 0
  uploadVersion _ := default
  validateIndex := []
  rereadEntry _ := 0
  pushTxnId _ := VersionEntry.kEmptyTxId
  commitIndex := []
  commitEntry _ := 0
  deleteIndex := []
  deleteEntry _ := 0
  releaseIndex := []
  releaseEntry _ := 0
  writeKey := key
  writeRecord := none
  readDataStoreKey := key

/-- The fields of an execution that are not part of its operations. `requestFinished` is the
`is_finished_` of the current request. -/
structure ExecutionState (K V S : Type) where
  services : S
  memory : Addr → V
  txnId : ℤ
  txnEntry : TxnEntry
  commitTimestampLocal : ℤ
  maxCommitTimestampOfWriters : ℤ
  commitTimestamp : ℤ
  isTransactionFinished : Bool
  status : TxnStatus
  result : Result
  currentRequest : Option (OperationRequest K)
  requestFinished : Bool
  keyReadSet : KeyReadSetEntryPool K
  keyWriteSet : KeyWriteSetEntryPool K

/-- `pending` and `log` are the handler's side: the calls it has not answered yet, and all that
was issued and answered so far, oldest first. -/
structure TransactionExecution (K V S : Type) extends ExecutionState K V S where
  operationVector : Slots Op
  flags : Op → OperationFlags
  handlerResult : (op : Op) → HandlerResult op.Result
  args : OperationArgs K
  pending : List (Op × HandlerCall K)
  log : List (Event K V)

namespace TransactionExecution

variable {K V S : Type}

def kMaxTxnExecutionTimeMS : ℤ := 100000

/-- A newly constructed execution, before its first `Reset`. -/
def init (services : S) (memory : Addr → V) (key : SetKey K) : TransactionExecution K V S where
  services := services
  memory := memory
  txnId := VersionEntry.kEmptyTxId
  txnEntry := default
  commitTimestampLocal := -1
  maxCommitTimestampOfWriters := -1
  commitTimestamp := -1
  isTransactionFinished := false
  status := .ongoing
  result := Result.reset none
  currentRequest := none
  requestFinished := false
  keyReadSet := .ofCapacity 10
  keyWriteSet := .ofCapacity 10
  operationVector := []
  flags _ := ⟨false, false⟩
  handlerResult op := ⟨op.defaultResult, false, false, 0⟩
  args := .init key
  pending := []
  log := []

def setFlags (e : TransactionExecution K V S) (op : Op) (f : OperationFlags) :
    TransactionExecution K V S :=
  { e with flags := Function.update e.flags op f }

def setHasNext (e : TransactionExecution K V S) (op : Op) (b : Bool) :
    TransactionExecution K V S :=
  e.setFlags op { e.flags op with hasNext := b }

def setMoveToNext (e : TransactionExecution K V S) (op : Op) (b : Bool) :
    TransactionExecution K V S :=
  e.setFlags op { e.flags op with moveToNext := b }

def setHandlerResult (e : TransactionExecution K V S) (op : Op) (r : HandlerResult op.Result) :
    TransactionExecution K V S :=
  { e with handlerResult := Function.update e.handlerResult op r }

def resetResult (e : TransactionExecution K V S) (op : Op) : TransactionExecution K V S :=
  e.setHandlerResult op { e.handlerResult op with isFinished := false, isError := false }

def issue (e : TransactionExecution K V S) (op : Op) (call : HandlerCall K) :
    TransactionExecution K V S :=
  { e with pending := e.pending ++ [(op, call)], log := e.log ++ [.issued op call] }

/-- `Result::SetFinished`: notifies the request that the result belongs to. -/
def setResult (e : TransactionExecution K V S) (r : Result) : TransactionExecution K V S :=
  { e with result := r, requestFinished := true }

def setResultError (e : TransactionExecution K V S) : TransactionExecution K V S :=
  e.setResult { e.result with isError := true }

def setResultNull (e : TransactionExecution K V S) : TransactionExecution K V S :=
  e.setResult { e.result with isNull := true }

def setResultDeleted (e : TransactionExecution K V S) : TransactionExecution K V S :=
  e.setResult { e.result with isDeleted := true }

def setResultStatus (e : TransactionExecution K V S) (status : TxnStatus) :
    TransactionExecution K V S :=
  e.setResult { e.result with status := status }

def setResultFinished (e : TransactionExecution K V S) : TransactionExecution K V S :=
  e.setResult e.result

/-- `Result::SetRecord`; the case of a null source is undefined in the source. -/
def setResultRecord (e : TransactionExecution K V S) (record : Option Addr) :
    TransactionExecution K V S :=
  match e.result.record, record with
  | none, _ => e.setResult { e.result with record := record }
  | some dst, some src =>
    if dst = src then e.setResultFinished
    else { e.setResultFinished with memory := Function.update e.memory dst (e.memory src) }
  | some _, none => e.setResultFinished

def setCommitTs [Services S] (e : TransactionExecution K V S) (candidate : ℤ) :
    TransactionExecution K V S :=
  { e with commitTimestamp := candidate, services := Services.setTime e.services candidate }

def setMaxCommitTsOfWriters (e : TransactionExecution K V S) (candidate : ℤ) :
    TransactionExecution K V S :=
  { e with maxCommitTimestampOfWriters := max e.maxCommitTimestampOfWriters candidate }

def resetTime [Services S] (e : TransactionExecution K V S) : TransactionExecution K V S :=
  let t := Services.getTime e.services
  { e with services := t.2, commitTimestampLocal := t.1,
           txnEntry := e.txnEntry.resetLowerBound t.1 }

def resetTxnIDAndTime [Services S] (e : TransactionExecution K V S) :
    TransactionExecution K V S :=
  let id := Services.generateID e.services
  let t := Services.getTime id.2
  { e with services := t.2, txnId := id.1, commitTimestampLocal := t.1,
           txnEntry := TxnEntry.reset id.1 t.1 }

/-- `Reset`, after which the execution runs its next transaction. The log starts afresh. -/
def reset [Services S] (e : TransactionExecution K V S) : TransactionExecution K V S :=
  resetTxnIDAndTime
    { e with keyReadSet := e.keyReadSet.reset, keyWriteSet := e.keyWriteSet.reset,
             currentRequest := none, isTransactionFinished := false, status := .ongoing,
             commitTimestamp := -1, maxCommitTimestampOfWriters := -1, log := [] }

def insertReadSet (e : TransactionExecution K V S) : TransactionExecution K V S :=
  { e with keyReadSet := e.keyReadSet.newReadSetEntry }

def releaseReadSet (e : TransactionExecution K V S) : TransactionExecution K V S :=
  { e with keyReadSet := e.keyReadSet.release }

def fillReadSet (e : TransactionExecution K V S) (i : ℕ) (key : SetKey K) (entry : ReadSetEntry) :
    TransactionExecution K V S :=
  { e with keyReadSet := e.keyReadSet.fill i key entry }

def insertWriteSet (e : TransactionExecution K V S) (key : SetKey K) (version : ℤ)
    (isDeleted : Bool) (record : Option Addr) (readEntry : ℕ) : TransactionExecution K V S :=
  { e with keyWriteSet :=
      e.keyWriteSet.newWriteSetEntry key version isDeleted record (some readEntry) false }

def setUpdated (e : TransactionExecution K V S) (i : ℕ) : TransactionExecution K V S :=
  { e with keyReadSet := e.keyReadSet.setUpdated i }

def clearRelease (e : TransactionExecution K V S) (i : ℕ) : TransactionExecution K V S :=
  { e with keyReadSet := e.keyReadSet.clearRelease i }

def findInReadSet [DecidableEq K] (e : TransactionExecution K V S) (key : SetKey K) : Option ℕ :=
  e.keyReadSet.findInReadSet key

def findInWriteSet [DecidableEq K] (e : TransactionExecution K V S) (key : SetKey K) : Option ℕ :=
  e.keyWriteSet.findInWriteSet key

def push (e : TransactionExecution K V S) (op : Op) : TransactionExecution K V S :=
  { e with operationVector := e.operationVector.pushBack op }

def setSlot (e : TransactionExecution K V S) (i : ℕ) (o : Option Op) :
    TransactionExecution K V S :=
  { e with operationVector := e.operationVector.setSlot i o }

end TransactionExecution

end Fugue
