import Fugue.CompositeOperation
import Mathlib.Data.List.Perm.Basic

/-! The rules that the handler calls of a transaction follow, as a function of what was issued
and answered before each call. -/

namespace Fugue

variable {K V S : Type}

def WriteSetEntry.plain (w : WriteSetEntry) : WriteSetEntry := { w with needPostProcessing := false }

def ReadSetEntry.plain (r : ReadSetEntry) : ReadSetEntry := { r with needRelease := false }

namespace ExecutionState

structure SameSets (x y : ExecutionState K V S) : Prop where
  txnId : y.txnId = x.txnId
  writeSize : y.keyWriteSet.popIndex = x.keyWriteSet.popIndex
  writeKey : ∀ i, y.keyWriteSet.key i = x.keyWriteSet.key i
  write : ∀ i, (y.keyWriteSet.entry i).plain = (x.keyWriteSet.entry i).plain
  readSize : y.keyReadSet.popIndex = x.keyReadSet.popIndex
  readKey : ∀ i, y.keyReadSet.key i = x.keyReadSet.key i
  read : ∀ i, (y.keyReadSet.entry i).plain = (x.keyReadSet.entry i).plain

structure Keyed (x : ExecutionState K V S) : Prop where
  write : ∀ i < x.keyWriteSet.popIndex, ∃ k, x.keyWriteSet.key i = some k
  read : ∀ i < x.keyReadSet.popIndex, ∃ k, x.keyReadSet.key i = some k

/-- The read-set entries that `Validate` re-reads. -/
def unupdated (x : ExecutionState K V S) : List ℕ :=
  (List.range x.keyReadSet.popIndex).filter fun i => !(x.keyReadSet.entry i).isUpdated

end ExecutionState

open ExecutionState

section

variable (log : List (Event K V))

def Uploaded (i : ℕ) : Prop :=
  ∃ c r, Event.answered (.uploadVersionEntry i) c r ∈ log ∧ r.isError = false

def UploadFailed (i : ℕ) : Prop :=
  ∃ c r, Event.answered (.uploadVersionEntry i) c r ∈ log ∧ r.isError = true

def Timestamped (ts : ℤ) : Prop :=
  ∃ c r, Event.answered .setCommitTs c r ∈ log ∧ r.isError = false ∧ r.result = ts ∧ 0 ≤ ts

def TimestampFailed : Prop :=
  ∃ c r, Event.answered .setCommitTs c r ∈ log ∧ (r.isError = true ∨ (r.result : ℤ) < 0)

def TxnEntry.Conflicts (ts : ℤ) (t : TxnEntry) : Prop :=
  t.status = .committed ∧ t.commitTs ≤ ts ∨
    t.status = .ongoing ∧ t.commitTs ≠ TxnEntry.kDefaultCommitTs ∧ t.commitTs ≤ ts

def Pushed (ts : ℤ) (i : ℕ) : Prop :=
  ∃ c r, Event.answered (.pushConflictTxnCommitTsLowerBound i) c r ∈ log ∧
    r.isError = false ∧ ¬ TxnEntry.Conflicts ts r.result

def PushFailed (ts : ℤ) (i : ℕ) : Prop :=
  ∃ c r, Event.answered (.pushConflictTxnCommitTsLowerBound i) c r ∈ log ∧
    (r.isError = true ∨ TxnEntry.Conflicts ts r.result)

def Reread (ts : ℤ) (isError : Bool) (v : VersionEntry) : Prop :=
  isError = false ∧ v.version ≠ VersionEntry.kDefaultVersion ∧ ts ≤ v.endTs

def Accepted (ts : ℤ) (i : ℕ) : Prop :=
  ∃ c r, Event.answered (.updateReadEntryMaxCommitTs i) c r ∈ log ∧ Reread ts r.isError r.result ∧
    (r.result.txId = VersionEntry.kEmptyTxId ∨ Pushed log ts i)

def Rejected (ts : ℤ) (i : ℕ) : Prop :=
  ∃ c r, Event.answered (.updateReadEntryMaxCommitTs i) c r ∈ log ∧ (¬ Reread ts r.isError r.result ∨
    r.result.txId ≠ VersionEntry.kEmptyTxId ∧ PushFailed log ts i)

def ToldCommitted : Prop :=
  ∃ c r, Event.answered .updateTxnStatusToCommit c r ∈ log ∧ r.isError = false

def ToldAborted : Prop :=
  ∃ c r, Event.answered .updateTxnStatusToAbort c r ∈ log ∧ r.isError = false

end

section

variable (x : ExecutionState K V S) (log : List (Event K V))

def AllUploaded : Prop := ∀ i < x.keyWriteSet.popIndex, Uploaded log i

def AllAccepted (ts : ℤ) : Prop := ∀ i < x.unupdated.length, Accepted log ts i

def Doomed : Prop :=
  (∃ i < x.keyWriteSet.popIndex, UploadFailed log i) ∨ AllUploaded x log ∧ (TimestampFailed log ∨
    ∃ ts, Timestamped log ts ∧ ∃ i < x.unupdated.length, Rejected log ts i)

def Proposed (ts : ℤ) : Prop :=
  (∀ i c r, Event.answered (.uploadVersionEntry i) c r ∈ log → r.isError = false →
      (r.result : ℤ) + 1 ≤ ts) ∧
    ∀ i < x.keyReadSet.popIndex, (x.keyReadSet.entry i).beginTs ≤ ts ∧
      ∀ k, x.keyReadSet.key i = some k → ∀ j < x.keyWriteSet.popIndex,
        x.keyWriteSet.key j = some k → (x.keyReadSet.entry i).beginTs + 1 ≤ ts

def uploadCall (i : ℕ) (k : SetKey K) : HandlerCall K :=
  .uploadVersion k
    { version := (x.keyWriteSet.entry i).version, txId := x.txnId,
      beginTs := VersionEntry.kDefaultBeginTs, endTs := VersionEntry.kDefaultEndTs,
      maxCommitTs := 0, isDeleted := (x.keyWriteSet.entry i).isDeleted,
      readRecord := none, writeRecord := none }

def commitCall (ts : ℤ) (i : ℕ) (k : SetKey K) : HandlerCall K :=
  .commitVersion k (x.keyWriteSet.entry i).version x.txnId ts VersionEntry.kMaxTimeStamp
    VersionEntry.kEmptyTxId (x.keyWriteSet.entry i).record

def deleteCall (i : ℕ) (k : SetKey K) : HandlerCall K :=
  .deleteVersion k (x.keyWriteSet.entry i).version

/-- What must have happened before the call `c` of `op` is issued. The sets `x` are those that
`Commit` or `Abort` was requested with, and `gaveUp` tells that it was `Abort`. -/
def CallOk (gaveUp : Prop) (op : Op) (c : HandlerCall K) : Prop :=
  match op with
  | .initTxn => ∃ t l, c = .newTxn t l TransactionExecution.kMaxTxnExecutionTimeMS
  | .readOutside => ∃ k l, c = .getVersionList k l
  | .readDataStore => ∃ k, c = .readRecord k
  | .uploadVersionEntry i => i < x.keyWriteSet.popIndex ∧
    ∃ k, x.keyWriteSet.key i = some k ∧ c = uploadCall x i k
  | .setCommitTs => AllUploaded x log ∧
    ∃ ts, Proposed x log ts ∧ c = .setCommitTimestamp x.txnId ts
  | .updateReadEntryMaxCommitTs j => AllUploaded x log ∧ ∃ ts i k, Timestamped log ts ∧
    x.unupdated[j]? = some i ∧ x.keyReadSet.key i = some k ∧
    c = .updateMaxCommitTsAndReread k (x.keyReadSet.entry i).version ts
  | .pushConflictTxnCommitTsLowerBound j => ∃ ts c' r, Timestamped log ts ∧
    Event.answered (.updateReadEntryMaxCommitTs j) c' r ∈ log ∧ Reread ts r.isError r.result ∧
    r.result.txId ≠ VersionEntry.kEmptyTxId ∧ c = .updateCommitLowerBound r.result.txId (ts + 1)
  | .updateTxnStatusToCommit => AllUploaded x log ∧
    (∃ ts, Timestamped log ts ∧ AllAccepted x log ts) ∧ c = .updateTxnStatus x.txnId .committed
  | .postProcessingCommitEntryAfterCommit _ => ToldCommitted log ∧
    ∃ ts, Timestamped log ts ∧ ∃ i < x.keyWriteSet.popIndex,
      ∃ k, x.keyWriteSet.key i = some k ∧ c = commitCall x ts i k
  | .updateTxnStatusToAbort => (gaveUp ∨ Doomed x log) ∧ c = .updateTxnStatus x.txnId .aborted
  | .postProcessingDeleteEntryAfterAbort _ => ToldAborted log ∧ ∃ i < x.keyWriteSet.popIndex,
    ((x.keyWriteSet.entry i).needPostProcessing = true ∨ Uploaded log i) ∧
    ∃ k, x.keyWriteSet.key i = some k ∧ c = deleteCall x i k
  | .releaseReadCounterForEachEntry _ => ToldAborted log ∧
    ∃ k v, c = .releaseReadCounter k v
  | _ => False

def Obeys (gaveUp : Prop) : Prop :=
  ∀ pre op c post, log = pre ++ .issued op c :: post → CallOk x pre gaveUp op c

end

section

variable (log : List (Event K V))

def issuedCalls : List (Op × HandlerCall K) :=
  log.filterMap fun
    | .issued op c => some (op, c)
    | .answered .. => none

def answeredCalls : List (Op × HandlerCall K) :=
  log.filterMap fun
    | .issued .. => none
    | .answered op c _ => some (op, c)

def HandlerCall.isOutcome : HandlerCall K → Bool
  | .updateTxnStatus .. => true
  | .commitVersion .. => true
  | .deleteVersion .. => true
  | _ => false

def outcomeCalls : List (HandlerCall K) :=
  ((issuedCalls log).map Prod.snd).filter HandlerCall.isOutcome

end

theorem needPostProcessing_set {p : KeyWriteSetEntryPool K} {j l : ℕ} (hl : l < p.popIndex) :
    ((p.setPostProcessing j).entry l).needPostProcessing =
      if l = j then true else (p.entry l).needPostProcessing := by
  simp only [KeyWriteSetEntryPool.setPostProcessing, KeyWriteSetEntryPool.entry,
    Pool.get_modify p _ hl]
  split <;> rfl

namespace ExecutionState.SameSets

variable {x y z : ExecutionState K V S}

theorem refl (x : ExecutionState K V S) : SameSets x x :=
  ⟨rfl, rfl, fun _ => rfl, fun _ => rfl, rfl, fun _ => rfl, fun _ => rfl⟩

theorem of_eq (hi : y.txnId = x.txnId) (hw : y.keyWriteSet = x.keyWriteSet)
    (hr : y.keyReadSet = x.keyReadSet) : SameSets x y :=
  ⟨hi, by rw [hw], by simp [hw], by simp [hw], by rw [hr], by simp [hr], by simp [hr]⟩

theorem setPostProcessing (j : ℕ) (hi : y.txnId = x.txnId)
    (hw : y.keyWriteSet = x.keyWriteSet.setPostProcessing j)
    (hr : y.keyReadSet = x.keyReadSet) : SameSets x y := by
  refine ⟨hi, by rw [hw]; rfl, fun l => ?_, fun l => ?_, by rw [hr], by simp [hr], by simp [hr]⟩
  · rw [hw]
    exact Pool.get_modify_field KeyWriteSetEntry.key _ _ _ _ fun _ => rfl
  · rw [hw]
    exact Pool.get_modify_field (fun o : KeyWriteSetEntry K => o.entry.plain) _ _ _ _ fun _ => rfl

theorem clearRelease (j : ℕ) (hi : y.txnId = x.txnId) (hw : y.keyWriteSet = x.keyWriteSet)
    (hr : y.keyReadSet = x.keyReadSet.clearRelease j) : SameSets x y := by
  refine ⟨hi, by rw [hw], by simp [hw], by simp [hw], by rw [hr]; rfl, fun l => ?_, fun l => ?_⟩
  · rw [hr]
    exact Pool.get_modify_field KeyReadSetEntry.key _ _ _ _ fun _ => rfl
  · rw [hr]
    exact Pool.get_modify_field (fun o : KeyReadSetEntry K => o.entry.plain) _ _ _ _ fun _ => rfl

theorem trans (h : SameSets x y) (h' : SameSets y z) : SameSets x z where
  txnId := h'.txnId.trans h.txnId
  writeSize := h'.writeSize.trans h.writeSize
  writeKey i := (h'.writeKey i).trans (h.writeKey i)
  write i := (h'.write i).trans (h.write i)
  readSize := h'.readSize.trans h.readSize
  readKey i := (h'.readKey i).trans (h.readKey i)
  read i := (h'.read i).trans (h.read i)

theorem version (h : SameSets x y) (i : ℕ) :
    (y.keyWriteSet.entry i).version = (x.keyWriteSet.entry i).version :=
  (congrArg WriteSetEntry.version (h.write i) :)

theorem isDeleted (h : SameSets x y) (i : ℕ) :
    (y.keyWriteSet.entry i).isDeleted = (x.keyWriteSet.entry i).isDeleted :=
  (congrArg WriteSetEntry.isDeleted (h.write i) :)

theorem record (h : SameSets x y) (i : ℕ) :
    (y.keyWriteSet.entry i).record = (x.keyWriteSet.entry i).record :=
  (congrArg WriteSetEntry.record (h.write i) :)

theorem readVersion (h : SameSets x y) (i : ℕ) :
    (y.keyReadSet.entry i).version = (x.keyReadSet.entry i).version :=
  (congrArg ReadSetEntry.version (h.read i) :)

theorem beginTs (h : SameSets x y) (i : ℕ) :
    (y.keyReadSet.entry i).beginTs = (x.keyReadSet.entry i).beginTs :=
  (congrArg ReadSetEntry.beginTs (h.read i) :)

theorem isUpdated (h : SameSets x y) (i : ℕ) :
    (y.keyReadSet.entry i).isUpdated = (x.keyReadSet.entry i).isUpdated :=
  (congrArg ReadSetEntry.isUpdated (h.read i) :)

theorem unupdated (h : SameSets x y) : y.unupdated = x.unupdated := by
  simp only [ExecutionState.unupdated, h.readSize, h.isUpdated]

end ExecutionState.SameSets

section

variable {log log' : List (Event K V)} {ts : ℤ} {i : ℕ}

theorem Uploaded.mono (h : Uploaded log i) (hl : log ⊆ log') : Uploaded log' i := by
  obtain ⟨c, r, hr, he⟩ := h
  exact ⟨c, r, hl hr, he⟩

theorem UploadFailed.mono (h : UploadFailed log i) (hl : log ⊆ log') : UploadFailed log' i := by
  obtain ⟨c, r, hr, he⟩ := h
  exact ⟨c, r, hl hr, he⟩

theorem Timestamped.mono (h : Timestamped log ts) (hl : log ⊆ log') : Timestamped log' ts := by
  obtain ⟨c, r, hr, he⟩ := h
  exact ⟨c, r, hl hr, he⟩

theorem TimestampFailed.mono (h : TimestampFailed log) (hl : log ⊆ log') :
    TimestampFailed log' := by
  obtain ⟨c, r, hr, he⟩ := h
  exact ⟨c, r, hl hr, he⟩

theorem Pushed.mono (h : Pushed log ts i) (hl : log ⊆ log') : Pushed log' ts i := by
  obtain ⟨c, r, hr, he⟩ := h
  exact ⟨c, r, hl hr, he⟩

theorem PushFailed.mono (h : PushFailed log ts i) (hl : log ⊆ log') : PushFailed log' ts i := by
  obtain ⟨c, r, hr, he⟩ := h
  exact ⟨c, r, hl hr, he⟩

theorem Accepted.mono (h : Accepted log ts i) (hl : log ⊆ log') : Accepted log' ts i := by
  obtain ⟨c, r, hr, he, hp⟩ := h
  exact ⟨c, r, hl hr, he, hp.imp_right fun hp => hp.mono hl⟩

theorem Rejected.mono (h : Rejected log ts i) (hl : log ⊆ log') : Rejected log' ts i := by
  obtain ⟨c, r, hr, he⟩ := h
  exact ⟨c, r, hl hr, he.imp_right fun hp => ⟨hp.1, hp.2.mono hl⟩⟩

theorem ToldCommitted.mono (h : ToldCommitted log) (hl : log ⊆ log') : ToldCommitted log' := by
  obtain ⟨c, r, hr, he⟩ := h
  exact ⟨c, r, hl hr, he⟩

theorem ToldAborted.mono (h : ToldAborted log) (hl : log ⊆ log') : ToldAborted log' := by
  obtain ⟨c, r, hr, he⟩ := h
  exact ⟨c, r, hl hr, he⟩

variable {x : ExecutionState K V S}

theorem AllUploaded.mono (h : AllUploaded x log) (hl : log ⊆ log') : AllUploaded x log' :=
  fun i hi => (h i hi).mono hl

theorem AllAccepted.mono (h : AllAccepted x log ts) (hl : log ⊆ log') : AllAccepted x log' ts :=
  fun i hi => (h i hi).mono hl

theorem Doomed.mono (h : Doomed x log) (hl : log ⊆ log') : Doomed x log' := by
  rcases h with ⟨i, hi, hf⟩ | ⟨ha, hf | ⟨ts, ht, i, hi, hr⟩⟩
  · exact .inl ⟨i, hi, hf.mono hl⟩
  · exact .inr ⟨ha.mono hl, .inl (hf.mono hl)⟩
  · exact .inr ⟨ha.mono hl, .inr ⟨ts, ht.mono hl, i, hi, hr.mono hl⟩⟩

end

section

variable {x : ExecutionState K V S} {log : List (Event K V)} {gaveUp : Prop}

theorem Obeys.answered (h : Obeys x log gaveUp) (op : Op) (c : HandlerCall K) (r : Reply V op) :
    Obeys x (log ++ [.answered op c r]) gaveUp := by
  intro pre op' c' post heq
  rcases List.eq_nil_or_concat post with rfl | ⟨post, ev, rfl⟩
  · have := (List.append_inj' heq rfl).2
    simp at this
  · refine h pre op' c' post ?_
    rw [List.concat_eq_append, ← List.cons_append, ← List.append_assoc] at heq
    exact (List.append_inj' heq rfl).1

theorem Obeys.issued (h : Obeys x log gaveUp) {op : Op} {c : HandlerCall K}
    (hc : CallOk x log gaveUp op c) : Obeys x (log ++ [.issued op c]) gaveUp := by
  intro pre op' c' post heq
  rcases List.eq_nil_or_concat post with rfl | ⟨post, ev, rfl⟩
  · obtain ⟨rfl, hev⟩ := List.append_inj' heq rfl
    injection (List.cons.inj hev).1 with h1 h2
    subst h1 h2
    exact hc
  · refine h pre op' c' post ?_
    rw [List.concat_eq_append, ← List.cons_append, ← List.append_assoc] at heq
    exact (List.append_inj' heq rfl).1

theorem Obeys.issues (h : Obeys x log gaveUp) {l : List (Op × HandlerCall K)}
    (hl : ∀ p ∈ l, ∀ log', log ⊆ log' → CallOk x log' gaveUp p.1 p.2) :
    Obeys x (log ++ TransactionExecution.issues l) gaveUp := by
  induction l using List.reverseRecOn with
  | nil => simpa [TransactionExecution.issues] using h
  | append_singleton l p ih =>
    have hb := ih fun q hq => hl q (List.mem_append_left _ hq)
    have hc := hl p (by simp) _ (List.subset_append_left log (TransactionExecution.issues l))
    simpa [TransactionExecution.issues] using hb.issued hc

theorem issuedCalls_append (log log' : List (Event K V)) :
    issuedCalls (log ++ log') = issuedCalls log ++ issuedCalls log' := List.filterMap_append

theorem answeredCalls_append (log log' : List (Event K V)) :
    answeredCalls (log ++ log') = answeredCalls log ++ answeredCalls log' := List.filterMap_append

theorem issuedCalls_issues (l : List (Op × HandlerCall K)) :
    issuedCalls (TransactionExecution.issues l : List (Event K V)) = l := by
  simp [issuedCalls, TransactionExecution.issues, List.filterMap_map]

theorem answeredCalls_issues (l : List (Op × HandlerCall K)) :
    answeredCalls (TransactionExecution.issues l : List (Event K V)) = [] := by
  simp [answeredCalls, TransactionExecution.issues]

theorem outcomeCalls_answered (log : List (Event K V)) (op : Op) (c : HandlerCall K)
    (r : Reply V op) : outcomeCalls (log ++ [.answered op c r]) = outcomeCalls log := by
  simp [outcomeCalls, issuedCalls]

theorem outcomeCalls_append (log log' : List (Event K V)) :
    outcomeCalls (log ++ log') = outcomeCalls log ++ outcomeCalls log' := by
  simp [outcomeCalls, issuedCalls_append]

theorem outcomeCalls_issues (l : List (Op × HandlerCall K)) :
    outcomeCalls (TransactionExecution.issues l : List (Event K V)) = (l.map Prod.snd).filter HandlerCall.isOutcome := by
  rw [outcomeCalls, issuedCalls_issues]

theorem TransactionExecution.calls_snd (child : ℕ → Op) (request : ExecutionState K V S → ℕ → Option (HandlerCall K))
    (z : ExecutionState K V S) (l : List ℕ) :
    (calls child request z l).map Prod.snd = l.filterMap (request z) := by
  induction l using List.reverseRecOn with
  | nil => rfl
  | append_singleton l j ih =>
    rw [calls_concat, List.map_append, ih, List.filterMap_append]
    cases h : request z j <;> simp [h]

theorem mem_issuedCalls {log : List (Event K V)} {op : Op} {c : HandlerCall K} :
    (op, c) ∈ issuedCalls log ↔ Event.issued op c ∈ log := by
  simp only [issuedCalls, List.mem_filterMap]
  constructor
  · rintro ⟨ev, hev, he⟩
    cases ev with
    | issued op' c' =>
      obtain ⟨rfl, rfl⟩ := Prod.mk.inj (Option.some.inj he)
      exact hev
    | answered op' c' r => cases he
  · exact fun h => ⟨_, h, rfl⟩

theorem mem_answeredCalls {log : List (Event K V)} {op : Op} {c : HandlerCall K} :
    (op, c) ∈ answeredCalls log ↔ ∃ r, Event.answered op c r ∈ log := by
  simp only [answeredCalls, List.mem_filterMap]
  constructor
  · rintro ⟨ev, hev, he⟩
    cases ev with
    | issued op' c' => cases he
    | answered op' c' r =>
      obtain ⟨rfl, rfl⟩ := Prod.mk.inj (Option.some.inj he)
      exact ⟨r, hev⟩
  · exact fun ⟨r, h⟩ => ⟨_, h, rfl⟩

end

namespace TransactionExecution

inductive Stage
  | upload | timestamp | validate | log | status | commit | committed
  | failing | abort | delete | release | aborted
  deriving DecidableEq

def Stage.rank : Stage → ℕ
  | .upload => 1
  | .timestamp => 2
  | .validate | .failing => 3
  | .log => 4
  | .status => 5
  | .commit | .committed => 6
  | .abort => 7
  | .delete => 8
  | .release | .aborted => 9

end TransactionExecution

/-- The first stage in which an operation can be called; zero before `Commit` and `Abort`. -/
def Op.rank : Op → ℕ
  | .upload | .uploadVersionEntry _ => 1
  | .setCommitTs => 2
  | .validate | .updateReadEntryMaxCommitTs _ | .pushConflictTxnCommitTsLowerBound _ => 3
  | .writeToLog => 4
  | .updateTxnStatusToCommit => 5
  | .postProcessingAfterCommit | .postProcessingCommitEntryAfterCommit _ => 6
  | .updateTxnStatusToAbort => 7
  | .postProcessingAfterAbort | .postProcessingDeleteEntryAfterAbort _ => 8
  | .releaseReadCounter | .releaseReadCounterForEachEntry _ => 9
  | _ => 0

def Once (log : List (Event K V)) : Prop :=
  (((issuedCalls log).map Prod.fst).filter fun op => decide (0 < op.rank)).Nodup

namespace Once

variable {log : List (Event K V)}

theorem of_ranked (h : ∀ ev ∈ log, ev.op.rank = 0) : Once log := by
  have hnil : ((issuedCalls log).map Prod.fst).filter (fun op => decide (0 < op.rank)) = [] := by
    refine List.filter_eq_nil_iff.mpr fun op hop => ?_
    obtain ⟨p, hp, rfl⟩ := List.mem_map.mp hop
    have hr : p.1.rank = 0 := h _ (mem_issuedCalls.mp hp)
    simp [hr]
  rw [Once, hnil]
  exact List.nodup_nil

theorem unique (h : Once log) {op : Op} (hop : 0 < op.rank) {c c' : HandlerCall K}
    (hc : Event.issued op c ∈ log) (hc' : Event.issued op c' ∈ log) : c = c' := by
  rw [Once, List.filter_map] at h
  have hmem : ∀ {c : HandlerCall K}, Event.issued op c ∈ log →
      (op, c) ∈ (issuedCalls log).filter ((fun op => decide (0 < op.rank)) ∘ Prod.fst) := by
    intro c hc
    exact List.mem_filter.mpr ⟨mem_issuedCalls.mpr hc, by simpa using hop⟩
  exact (Prod.mk.inj (List.inj_on_of_nodup_map h (hmem hc) (hmem hc') rfl)).2

theorem answered (h : Once log) (op : Op) (c : HandlerCall K) (r : Reply V op) :
    Once (log ++ [.answered op c r]) := by
  rw [Once, issuedCalls_append, show issuedCalls [.answered op c r] = [] from rfl, List.append_nil]
  exact h

theorem issues (h : Once log) {l : List (Op × HandlerCall K)} (hl : (l.map Prod.fst).Nodup)
    (hnew : ∀ p ∈ l, ∀ c, Event.issued p.1 c ∉ log) :
    Once (log ++ TransactionExecution.issues l) := by
  rw [Once, issuedCalls_append, issuedCalls_issues, List.map_append, List.filter_append]
  refine h.append (hl.filter _) fun op hop hop' => ?_
  obtain ⟨q, hq, rfl⟩ := List.mem_map.mp (List.mem_filter.mp hop).1
  obtain ⟨p, hp, hpq⟩ := List.mem_map.mp (List.mem_filter.mp hop').1
  exact hnew p hp q.2 (hpq ▸ mem_issuedCalls.mp hq)

end Once

end Fugue
