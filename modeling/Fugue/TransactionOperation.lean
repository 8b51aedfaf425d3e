import Fugue.TransactionExecution

/-! The operations of a transaction. An `Except` error stands for a thrown exception or a failed assertion. -/

namespace Fugue

variable {K V S : Type}

def internalPickVisibleVersion (v1 v2 : VersionEntry) : Except String (Option VersionEntry) :=
  if v1.endTs ≠ VersionEntry.kDefaultEndTs then
    .ok (if !v1.isDeleted || v1.version > 0 then some v1 else none)
  else if v2.version ≠ VersionEntry.kDefaultVersion then
    if v2.beginTs = VersionEntry.kDefaultBeginTs then
      .error "assert(v2.begin_ts_ != VersionEntry::kDefaultBeginTs)"
    else .ok (if !v2.isDeleted || v2.version > 0 then some v2 else none)
  else .ok none

def pickVisibleVersion (v : VersionEntry × VersionEntry) : Except String (Option VersionEntry) :=
  if v.1.version > v.2.version then internalPickVisibleVersion v.1 v.2
  else if v.1.version < v.2.version then internalPickVisibleVersion v.2 v.1
  else .ok none

def recoverMessage : String := "unhandle exception and need to be recovered manually"

/-- `Constant::ENABLE_LOG`. -/
def enableLog : Bool := false

namespace TransactionExecution

/-- The handler request that the `CallImpl` of a leaf operation issues. -/
def handlerCall (e : TransactionExecution K V S) : Op → Option (HandlerCall K)
  | .readOutside => some (.getVersionList e.args.readOutsideKey e.commitTimestampLocal)
  | .uploadVersionEntry i =>
    (e.keyWriteSet.key (e.args.uploadEntry i)).map fun k => .uploadVersion k (e.args.uploadVersion i)
  | .setCommitTs => some (.setCommitTimestamp e.txnId e.commitTimestamp)
  | .updateReadEntryMaxCommitTs i =>
    (e.keyReadSet.key (e.args.rereadEntry i)).map fun k =>
      .updateMaxCommitTsAndReread k (e.keyReadSet.entry (e.args.rereadEntry i)).version
        e.commitTimestamp
  | .pushConflictTxnCommitTsLowerBound i =>
    some (.updateCommitLowerBound (e.args.pushTxnId i) (e.commitTimestamp + 1))
  | .updateTxnStatusToCommit => some (.updateTxnStatus e.txnId .committed)
  | .postProcessingCommitEntryAfterCommit i =>
    (e.keyWriteSet.key (e.args.commitEntry i)).map fun k =>
      .commitVersion k (e.keyWriteSet.entry (e.args.commitEntry i)).version e.txnId
        e.commitTimestamp VersionEntry.kMaxTimeStamp VersionEntry.kEmptyTxId
        (e.keyWriteSet.entry (e.args.commitEntry i)).record
  | .postProcessingDeleteEntryAfterAbort i =>
    (e.keyWriteSet.key (e.args.deleteEntry i)).map fun k =>
      .deleteVersion k (e.keyWriteSet.entry (e.args.deleteEntry i)).version
  | .releaseReadCounterForEachEntry i =>
    (e.keyReadSet.key (e.args.releaseEntry i)).map fun k =>
      .releaseReadCounter k (e.keyReadSet.entry (e.args.releaseEntry i)).version
  | .updateTxnStatusToAbort => some (.updateTxnStatus e.txnId .aborted)
  | .initTxn => some (.newTxn e.txnEntry e.commitTimestampLocal kMaxTxnExecutionTimeMS)
  | .readDataStore => some (.readRecord e.args.readDataStoreKey)
  | _ => none

def issueCall (e : TransactionExecution K V S) (op : Op) : TransactionExecution K V S :=
  match e.handlerCall op with
  | some call => e.issue op call
  | none => e

def resetReadOutside (e : TransactionExecution K V S) (key : SetKey K) :
    TransactionExecution K V S :=
  let e := e.insertReadSet
  { e with args := { e.args with readOutsideKey := key,
                                 readOutsideEntry := e.keyReadSet.popIndex - 1 } }
    |>.setHandlerResult .readOutside
      { e.handlerResult .readOutside with
        isFinished := false, isError := false,
        result := (VersionEntry.blank e.result.record, VersionEntry.blank e.result.record) }

def resetUpload (e : TransactionExecution K V S) : TransactionExecution K V S :=
  { e with args := { e.args with uploadSize := e.keyWriteSet.popIndex } }

def resetUploadVersionEntry (e : TransactionExecution K V S) (i index : ℕ) :
    TransactionExecution K V S :=
  { e with
    args := { e.args with
      uploadEntry := Function.update e.args.uploadEntry i index
      uploadVersion := Function.update e.args.uploadVersion i
        { version := (e.keyWriteSet.entry index).version, txId := e.txnId,
          beginTs := VersionEntry.kDefaultBeginTs, endTs := VersionEntry.kDefaultEndTs,
          maxCommitTs := 0, isDeleted := (e.keyWriteSet.entry index).isDeleted,
          readRecord := none, writeRecord := none } } }
    |>.resetResult (.uploadVersionEntry i)

def resetValidate (e : TransactionExecution K V S) : TransactionExecution K V S :=
  { e with args := { e.args with
      validateIndex := (List.range e.keyReadSet.popIndex).filter
        fun i => !(e.keyReadSet.entry i).isUpdated } }

def resetUpdateReadEntryMaxCommitTs (e : TransactionExecution K V S) (i index : ℕ) :
    TransactionExecution K V S :=
  { e with args := { e.args with rereadEntry := Function.update e.args.rereadEntry i index } }
    |>.resetResult (.updateReadEntryMaxCommitTs i)

def resetPushConflict (e : TransactionExecution K V S) (i : ℕ) (txnId : ℤ) :
    TransactionExecution K V S :=
  { e with args := { e.args with pushTxnId := Function.update e.args.pushTxnId i txnId } }
    |>.resetResult (.pushConflictTxnCommitTsLowerBound i)

/-- The indices of the write-set entries whose upload succeeded, for both post-processings. -/
def postProcessIndex (e : TransactionExecution K V S) : List ℕ :=
  (List.range e.keyWriteSet.popIndex).filter fun i => (e.keyWriteSet.entry i).needPostProcessing

def resetPostProcessingAfterCommit (e : TransactionExecution K V S) :
    TransactionExecution K V S :=
  { e with args := { e.args with commitIndex := e.postProcessIndex } }

def resetPostProcessingCommitEntry (e : TransactionExecution K V S) (i index : ℕ) :
    TransactionExecution K V S :=
  { e with args := { e.args with commitEntry := Function.update e.args.commitEntry i index } }
    |>.setHandlerResult (.postProcessingCommitEntryAfterCommit i)
      ⟨(), false, false, 2⟩

def resetPostProcessingAfterAbort (e : TransactionExecution K V S) :
    TransactionExecution K V S :=
  { e with args := { e.args with deleteIndex := e.postProcessIndex } }

def resetPostProcessingDeleteEntry (e : TransactionExecution K V S) (i index : ℕ) :
    TransactionExecution K V S :=
  { e with args := { e.args with deleteEntry := Function.update e.args.deleteEntry i index } }
    |>.resetResult (.postProcessingDeleteEntryAfterAbort i)

def resetReleaseReadCounter (e : TransactionExecution K V S) : TransactionExecution K V S :=
  { e with args := { e.args with
      releaseIndex := (List.range e.keyReadSet.popIndex).filter
        fun i => (e.keyReadSet.entry i).needRelease } }

def resetReleaseReadCounterForEachEntry (e : TransactionExecution K V S) (i index : ℕ) :
    TransactionExecution K V S :=
  { e with args := { e.args with releaseEntry := Function.update e.args.releaseEntry i index } }
    |>.resetResult (.releaseReadCounterForEachEntry i)

/-- `Reset` of the insert, upsert, update and delete operations. -/
def resetWrite (e : TransactionExecution K V S) (key : SetKey K) (record : Option Addr) :
    TransactionExecution K V S :=
  { e with args := { e.args with writeKey := key, writeRecord := record } }

section

variable [DecidableEq K] [Services S]

/-- The timestamp that `SetCommitTsOperation::CallImpl` computes after it took the time. -/
def proposedCommitTs (e : TransactionExecution K V S) : ℤ :=
  (List.range e.keyReadSet.popIndex).foldl
    (fun ts i =>
      if ((e.keyReadSet.key i).bind e.findInWriteSet).isSome then
        max ts ((e.keyReadSet.entry i).beginTs + 1)
      else max ts (e.keyReadSet.entry i).beginTs)
    (max (e.maxCommitTimestampOfWriters + 1) e.commitTimestampLocal)

def setCommitTsCallImpl (e : TransactionExecution K V S) : TransactionExecution K V S :=
  let e := e.resetTime
  let e := e.setCommitTs e.proposedCommitTs
  e.issueCall .setCommitTs

def writeToLogCallImpl (e : TransactionExecution K V S) : TransactionExecution K V S :=
  if e.keyWriteSet.popIndex = 0 || !enableLog then
    e.setHandlerResult .writeToLog { e.handlerResult .writeToLog with isFinished := true }
  else
    let e := { e with txnEntry := { e.txnEntry with commitTs := e.commitTimestamp } }
    e.issue .writeToLog (.asyncAppend e.keyWriteSet.popIndex e.txnEntry)

/-- Marks the read-set entry and adds a write-set entry that replaces the version it read. -/
def write (e : TransactionExecution K V S) (readEntry : ℕ) (isDeleted : Bool)
    (record : Option Addr) : TransactionExecution K V S :=
  (e.setUpdated readEntry).insertWriteSet e.args.writeKey
    ((e.keyReadSet.entry readEntry).version + 1) isDeleted record readEntry |>.setResultFinished

def updateCallImpl (e : TransactionExecution K V S) : TransactionExecution K V S :=
  match e.findInReadSet e.args.writeKey with
  | some i =>
    if (e.keyReadSet.entry i).isDeleted ∧ (e.keyReadSet.entry i).version > 0 then e.setResultError
    else e.write i false e.args.writeRecord
  | none => e.setResultError

def deleteCallImpl (e : TransactionExecution K V S) : TransactionExecution K V S :=
  match e.findInWriteSet e.args.writeKey, e.findInReadSet e.args.writeKey with
  | some i, _ =>
    if (e.keyWriteSet.entry i).isDeleted then e.setResultError
    else { e with keyWriteSet := e.keyWriteSet.setDeleted i } |>.setResultFinished
  | none, some i =>
    if (e.keyReadSet.entry i).isDeleted then e.setResultError else e.write i true none
  | none, none => e.setResultError

def callLeaf (op : Op) (e : TransactionExecution K V S) : TransactionExecution K V S :=
  let e := e.setMoveToNext op false
  match op with
  | .setCommitTs => e.setCommitTsCallImpl
  | .writeToLog => e.writeToLogCallImpl
  | .update => e.updateCallImpl
  | .delete => e.deleteCallImpl
  | op => e.issueCall op

def invoke (e : TransactionExecution K V S) (op : Op) : TransactionExecution K V S :=
  callLeaf op (e.push op)

/-- The loop in which a composite operation resets and invokes its children. -/
def invokeAll (reset : TransactionExecution K V S → ℕ → ℕ → TransactionExecution K V S)
    (child : ℕ → Op) (index : List ℕ) (e : TransactionExecution K V S) :
    TransactionExecution K V S :=
  index.zipIdx.foldl (fun e p => (reset e p.2 p.1).invoke (child p.2)) e

def call (op : Op) (e : TransactionExecution K V S) : TransactionExecution K V S :=
  match op with
  | .upload =>
    e.setMoveToNext .upload false |>.invokeAll resetUploadVersionEntry .uploadVersionEntry
      (List.range e.args.uploadSize)
  | .validate =>
    e.setMoveToNext .validate false |>.invokeAll resetUpdateReadEntryMaxCommitTs
      .updateReadEntryMaxCommitTs e.args.validateIndex
  | .postProcessingAfterCommit =>
    e.setMoveToNext .postProcessingAfterCommit false |>.invokeAll resetPostProcessingCommitEntry
      .postProcessingCommitEntryAfterCommit e.args.commitIndex
  | .postProcessingAfterAbort =>
    e.setMoveToNext .postProcessingAfterAbort false |>.invokeAll resetPostProcessingDeleteEntry
      .postProcessingDeleteEntryAfterAbort e.args.deleteIndex
  | .releaseReadCounter =>
    e.setMoveToNext .releaseReadCounter false |>.invokeAll resetReleaseReadCounterForEachEntry
      .releaseReadCounterForEachEntry e.args.releaseIndex
  | .insert => e.setMoveToNext .insert false |>.resetReadOutside e.args.writeKey |>.invoke .readOutside
  | .upsert => e.setMoveToNext .upsert false |>.resetReadOutside e.args.writeKey |>.invoke .readOutside
  | op => callLeaf op e

end

def leafIsFinished (e : TransactionExecution K V S) : Op → Bool
  | .postProcessingCommitEntryAfterCommit i =>
    (e.handlerResult (.postProcessingCommitEntryAfterCommit i)).refCnt == 0
  | .update => true
  | .delete => true
  | op => (e.handlerResult op).isFinished

def isCascadeFinished (e : TransactionExecution K V S) : Op → Bool
  | .updateReadEntryMaxCommitTs i =>
    e.leafIsFinished (.updateReadEntryMaxCommitTs i) &&
      (e.flags (.updateReadEntryMaxCommitTs i)).moveToNext &&
      (!(e.flags (.updateReadEntryMaxCommitTs i)).hasNext ||
        (e.leafIsFinished (.pushConflictTxnCommitTsLowerBound i) &&
          (e.flags (.pushConflictTxnCommitTsLowerBound i)).moveToNext))
  | op => e.leafIsFinished op && (e.flags op).moveToNext

/-- The operations that a composite operation waits for. -/
def children (e : TransactionExecution K V S) : Op → Option (List Op)
  | .upload => some ((List.range e.args.uploadSize).map .uploadVersionEntry)
  | .validate => some ((List.range e.args.validateIndex.length).map .updateReadEntryMaxCommitTs)
  | .postProcessingAfterCommit =>
    some ((List.range e.args.commitIndex.length).map .postProcessingCommitEntryAfterCommit)
  | .postProcessingAfterAbort =>
    some ((List.range e.args.deleteIndex.length).map .postProcessingDeleteEntryAfterAbort)
  | .releaseReadCounter =>
    some ((List.range e.args.releaseIndex.length).map .releaseReadCounterForEachEntry)
  | .insert => some [.readOutside]
  | .upsert => some [.readOutside]
  | _ => none

def isFinished (e : TransactionExecution K V S) (op : Op) : Bool :=
  match e.children op with
  | some ops => ops.all e.isCascadeFinished
  | none => e.leafIsFinished op

/-- `TransactionOperation::PrepareAbort`. -/
def prepareAbort (op : Op) (e : TransactionExecution K V S) :
    Option Op × TransactionExecution K V S :=
  (none, { e with status := .waitForAborting }.setHasNext op false)

/-- `TransactionOperation::Abort`. -/
def abortNext (op : Op) (e : TransactionExecution K V S) :
    Option Op × TransactionExecution K V S :=
  (none, { e with status := .aborting }.setHasNext op false)

def noNext (op : Op) (e : TransactionExecution K V S) : Option Op × TransactionExecution K V S :=
  (none, e.setHasNext op false)

def internalRead (e : TransactionExecution K V S) :
    Except String (TransactionExecution K V S) :=
  match pickVisibleVersion (e.handlerResult .readOutside).result with
  | .error m => .error m
  | .ok (some v) =>
    let e := e.fillReadSet e.args.readOutsideEntry e.args.readOutsideKey
      (.reset v.version v.txId v.beginTs v.endTs v.isDeleted v.readRecord)
    .ok (if v.isDeleted then e.setResultDeleted else e.setResultRecord v.readRecord)
  | .ok none =>
    .ok (e.fillReadSet e.args.readOutsideEntry e.args.readOutsideKey
      (.reset 0 VersionEntry.kEmptyTxId 0 VersionEntry.kMaxTimeStamp true none)).setResultNull

def uploadVersionEntryNext (i : ℕ) (e : TransactionExecution K V S) :
    Option Op × TransactionExecution K V S :=
  let r := e.handlerResult (.uploadVersionEntry i)
  if r.isError then prepareAbort (.uploadVersionEntry i) e
  else
    noNext (.uploadVersionEntry i)
      ({ e with keyWriteSet := e.keyWriteSet.setPostProcessing (e.args.uploadEntry i) }
        |>.setMaxCommitTsOfWriters r.result)

def updateReadEntryMaxCommitTsNext (i : ℕ) (e : TransactionExecution K V S) :
    Except String (Option Op × TransactionExecution K V S) :=
  let r := e.handlerResult (.updateReadEntryMaxCommitTs i)
  if r.isError then .ok (prepareAbort (.updateReadEntryMaxCommitTs i) e)
  else
    let e := e.clearRelease (e.args.rereadEntry i)
    if r.result.version = VersionEntry.kDefaultVersion then
      .ok (prepareAbort (.updateReadEntryMaxCommitTs i) e)
    else if r.result.maxCommitTs < e.commitTimestamp then
      .error "assert(version_entry.max_commit_ts_ >= execution_->GetCommitTs())"
    else if e.commitTimestamp > r.result.endTs then
      .ok (prepareAbort (.updateReadEntryMaxCommitTs i) e)
    else if r.result.txId ≠ VersionEntry.kEmptyTxId then
      .ok (some (.pushConflictTxnCommitTsLowerBound i), e.resetPushConflict i r.result.txId)
    else .ok (noNext (.updateReadEntryMaxCommitTs i) e)

def pushConflictNext (i : ℕ) (e : TransactionExecution K V S) :
    Option Op × TransactionExecution K V S :=
  let r := e.handlerResult (.pushConflictTxnCommitTsLowerBound i)
  if r.isError then prepareAbort (.pushConflictTxnCommitTsLowerBound i) e
  else if (r.result.status = .committed ∧ r.result.commitTs ≤ e.commitTimestamp) ∨
      (r.result.status = .ongoing ∧ r.result.commitTs ≠ TxnEntry.kDefaultCommitTs ∧
        r.result.commitTs ≤ e.commitTimestamp) then
    prepareAbort (.pushConflictTxnCommitTsLowerBound i) e
  else noNext (.pushConflictTxnCommitTsLowerBound i) e

/-- Clears `need_release_` of the read-set entry that a write-set entry points to. -/
def clearReleaseOfWrite (e : TransactionExecution K V S) (index : ℕ) :
    TransactionExecution K V S :=
  match (e.keyWriteSet.entry index).readEntry with
  | some j => e.clearRelease j
  | none => e

def deleteEntryNext (i : ℕ) (e : TransactionExecution K V S) :
    Option Op × TransactionExecution K V S :=
  match (e.keyWriteSet.entry (e.args.deleteEntry i)).readEntry with
  | some j =>
    noNext (.postProcessingDeleteEntryAfterAbort i)
      (if (e.keyReadSet.entry j).needPostProcessing then e.clearRelease j else e)
  | none => noNext (.postProcessingDeleteEntryAfterAbort i) e

def readDataStoreNext (e : TransactionExecution K V S) :
    Option Op × TransactionExecution K V S :=
  let r := e.handlerResult .readDataStore
  noNext .readDataStore
    (if r.isError then e.setResultError
     else match (r.result : Option Addr) with
       | none => e.setResultNull
       | some a => e.setResultRecord (some a))

variable [DecidableEq K] [Services S]

def insertNext (e : TransactionExecution K V S) : Option Op × TransactionExecution K V S :=
  noNext .insert <|
    match e.findInReadSet e.args.writeKey with
    | some i =>
      if (e.keyReadSet.entry i).isDeleted then e.write i false e.args.writeRecord
      else e.setResultError
    | none => e.setResultError

def upsertNext (e : TransactionExecution K V S) : Option Op × TransactionExecution K V S :=
  noNext .upsert <|
    match e.findInReadSet e.args.writeKey with
    | some i => e.write i false e.args.writeRecord
    | none => e

def nextImpl (op : Op) (e : TransactionExecution K V S) :
    Except String (Option Op × TransactionExecution K V S) :=
  match op with
  | .readOutside =>
    if (e.handlerResult .readOutside).isError then
      .ok (noNext .readOutside e.releaseReadSet.setResultError)
    else e.internalRead.map (noNext .readOutside)
  | .upload =>
    if e.status = .waitForAborting then .ok (abortNext .upload e)
    else .ok (some .setCommitTs, e.resetResult .setCommitTs)
  | .uploadVersionEntry i => .ok (uploadVersionEntryNext i e)
  | .setCommitTs =>
    let r := e.handlerResult .setCommitTs
    if r.isError ∨ (r.result : ℤ) < 0 then .ok (abortNext .setCommitTs e)
    else .ok (some .validate, (e.setCommitTs r.result).resetValidate)
  | .validate =>
    if e.status = .waitForAborting then .ok (abortNext .validate e)
    else .ok (some .writeToLog, e.setHandlerResult .writeToLog
      { e.handlerResult .writeToLog with isFinished := false })
  | .updateReadEntryMaxCommitTs i => updateReadEntryMaxCommitTsNext i e
  | .pushConflictTxnCommitTsLowerBound i => .ok (pushConflictNext i e)
  | .writeToLog => .ok (some .updateTxnStatusToCommit, e.resetResult .updateTxnStatusToCommit)
  | .updateTxnStatusToCommit =>
    if (e.handlerResult .updateTxnStatusToCommit).isError then .error recoverMessage
    else .ok (some .postProcessingAfterCommit,
      (e.setResultStatus .committed).resetPostProcessingAfterCommit)
  | .postProcessingAfterCommit =>
    .ok (noNext .postProcessingAfterCommit
      { e with status := .committed, isTransactionFinished := true })
  | .postProcessingCommitEntryAfterCommit i =>
    if (e.handlerResult (.postProcessingCommitEntryAfterCommit i)).isError then
      .error recoverMessage
    else .ok (noNext (.postProcessingCommitEntryAfterCommit i)
      (e.clearReleaseOfWrite (e.args.commitEntry i)))
  | .postProcessingAfterAbort => .ok (some .releaseReadCounter, e.resetReleaseReadCounter)
  | .postProcessingDeleteEntryAfterAbort i =>
    if (e.handlerResult (.postProcessingDeleteEntryAfterAbort i)).isError then
      .error recoverMessage
    else .ok (deleteEntryNext i e)
  | .releaseReadCounter =>
    .ok (noNext .releaseReadCounter { e with status := .aborted, isTransactionFinished := true })
  | .releaseReadCounterForEachEntry i =>
    if (e.handlerResult (.releaseReadCounterForEachEntry i)).isError then .error recoverMessage
    else .ok (noNext (.releaseReadCounterForEachEntry i) (e.clearRelease (e.args.releaseEntry i)))
  | .updateTxnStatusToAbort =>
    if (e.handlerResult .updateTxnStatusToAbort).isError then .error recoverMessage
    else .ok (some .postProcessingAfterAbort,
      (e.setResultStatus .aborted).resetPostProcessingAfterAbort)
  | .insert => .ok (insertNext e)
  | .upsert => .ok (upsertNext e)
  | .update => .ok (noNext .update e)
  | .delete => .ok (noNext .delete e)
  | .initTxn =>
    if (e.handlerResult .initTxn).isError then
      .ok (some .initTxn, e.resetTxnIDAndTime.resetResult .initTxn)
    else .ok (noNext .initTxn ({ e with txnId := e.txnEntry.txId }.setResultFinished))
  | .readDataStore => .ok (readDataStoreNext e)

def next (op : Op) (e : TransactionExecution K V S) :
    Except String (Option Op × TransactionExecution K V S) :=
  nextImpl op (e.setFlags op ⟨true, true⟩)

end TransactionExecution

end Fugue
