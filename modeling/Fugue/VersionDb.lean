import Mathlib.Data.Int.Notation
import Mathlib.Order.Basic
import Mathlib.Tactic.Common

/-! The records that transactions exchange with the version store. `ℤ` stands for `int64_t` in runs
whose sums stay `InInt64`, and an `Addr` for the address of a `Record` object. -/

namespace Fugue

/-- A `std::string` is the list of its bytes. -/
abbrev TableName := List UInt8

instance : Coe String TableName := ⟨fun s => s.toUTF8.toList⟩

abbrev Addr := ℕ

/-- `INT64_MAX`. -/
def int64Max : ℤ := 9223372036854775807

def InInt64 (z : ℤ) : Prop := -int64Max - 1 ≤ z ∧ z ≤ int64Max

structure SetKey (K : Type) where
  tableName : TableName
  key : K
  deriving DecidableEq

structure VersionEntry where
  version : ℤ
  txId : ℤ
  beginTs : ℤ
  endTs : ℤ
  maxCommitTs : ℤ
  isDeleted : Bool
  readRecord : Option Addr
  writeRecord : Option Addr
  deriving DecidableEq

namespace VersionEntry

def kDefaultBeginTs : ℤ := -1
def kDefaultEndTs : ℤ := -1
def kMaxTimeStamp : ℤ := int64Max
def kDefaultVersion : ℤ := -1
def kEmptyTxId : ℤ := -1

/-- The one-argument `Reset`, which is also the default constructor up to the record. -/
def blank (record : Option Addr) : VersionEntry where
  version := kDefaultVersion
  txId := kEmptyTxId
  beginTs := kDefaultBeginTs
  endTs := kDefaultEndTs
  maxCommitTs := -1
  isDeleted := true
  readRecord := record
  writeRecord := none

instance : Inhabited VersionEntry := ⟨blank none⟩

end VersionEntry

structure ReadSetEntry where
  version : ℤ
  txId : ℤ
  beginTs : ℤ
  endTs : ℤ
  isDeleted : Bool
  isUpdated : Bool
  record : Option Addr
  needPostProcessing : Bool
  needRelease : Bool
  deriving DecidableEq

instance : Inhabited ReadSetEntry where
  default :=
    { version := VersionEntry.kDefaultVersion, txId := VersionEntry.kEmptyTxId,
      beginTs := VersionEntry.kDefaultBeginTs, endTs := VersionEntry.kDefaultEndTs,
      isDeleted := true, isUpdated := false, record := none, needPostProcessing := false,
      needRelease := true }

/-- `Reset` with the defaults of its trailing arguments. -/
def ReadSetEntry.reset (version txId beginTs endTs : ℤ) (isDeleted : Bool)
    (record : Option Addr) : ReadSetEntry where
  version := version
  txId := txId
  beginTs := beginTs
  endTs := endTs
  isDeleted := isDeleted
  isUpdated := false
  record := record
  needPostProcessing := false
  needRelease := true

/-- `readEntry` is a pointer into the read set: the index of the pool object. -/
structure WriteSetEntry where
  version : ℤ
  isDeleted : Bool
  record : Option Addr
  readEntry : Option ℕ
  needPostProcessing : Bool
  deriving DecidableEq

instance : Inhabited WriteSetEntry where
  default :=
    { version := VersionEntry.kDefaultVersion, isDeleted := true, record := none,
      readEntry := none, needPostProcessing := false }

inductive TxnStatus
  | ongoing | committed | waitForAborting | aborting | aborted
  deriving DecidableEq

structure TxnEntry where
  txId : ℤ
  status : TxnStatus
  commitTs : ℤ
  commitLowerBound : ℤ
  deriving DecidableEq

namespace TxnEntry

def kDefaultCommitTs : ℤ := -1

instance : Inhabited TxnEntry :=
  ⟨VersionEntry.kEmptyTxId, .ongoing, kDefaultCommitTs, kDefaultCommitTs⟩

def reset (txId lowerBound : ℤ) : TxnEntry := ⟨txId, .ongoing, kDefaultCommitTs, lowerBound⟩

def resetLowerBound (t : TxnEntry) (lowerBound : ℤ) : TxnEntry :=
  { t with commitLowerBound := lowerBound }

end TxnEntry

structure HandlerResult (T : Type) where
  result : T
  isFinished : Bool
  isError : Bool
  refCnt : ℤ
  deriving DecidableEq

/-- The requests of `Handler` that a transaction issues, with their input arguments. -/
inductive HandlerCall (K : Type)
  | newTxn (entry : TxnEntry) (localTime maxTxnExecutionTimeMs : ℤ)
  | getVersionList (key : SetKey K) (time : ℤ)
  | uploadVersion (key : SetKey K) (versionEntry : VersionEntry)
  | setCommitTimestamp (txnId commitTs : ℤ)
  | updateMaxCommitTsAndReread (key : SetKey K) (version maxCommitTs : ℤ)
  | updateCommitLowerBound (txnId commitTsLowerBound : ℤ)
  | updateTxnStatus (txnId : ℤ) (status : TxnStatus)
  | commitVersion (key : SetKey K) (version expectTxnId targetBeginTs targetEndTs targetTxId : ℤ)
      (record : Option Addr)
  | deleteVersion (key : SetKey K) (version : ℤ)
  | releaseReadCounter (key : SetKey K) (version : ℤ)
  | readRecord (key : SetKey K)
  | asyncAppend (writeSetSize : ℕ) (txnEntry : TxnEntry)
  deriving DecidableEq

/-- The id generator and the clock that the transactions of one executor share. -/
class Services (S : Type) where
  generateID : S → ℤ × S
  getTime : S → ℤ × S
  setTime : S → ℤ → S

end Fugue
