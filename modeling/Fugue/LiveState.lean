import Fugue.CompositeOperation
import Mathlib.Data.Set.Insert

/-! What an execution can still read of its pooled objects. Two executions that agree there behave
in the same way, whatever the rest of their objects holds. -/

namespace Fugue

variable {K V S : Type}

/-- The entries and the operations that were overwritten since the transaction began. -/
structure Live where
  reads : Set ℕ
  writes : Set ℕ
  reset : Set Op
  called : Set Op

structure Live.Le (s t : Live) : Prop where
  reads : s.reads ⊆ t.reads
  writes : s.writes ⊆ t.writes
  reset : s.reset ⊆ t.reset
  called : s.called ⊆ t.called

theorem Live.Le.refl (s : Live) : s.Le s := ⟨subset_rfl, subset_rfl, subset_rfl, subset_rfl⟩

theorem Live.Le.trans {s t u : Live} (h : s.Le t) (h' : t.Le u) : s.Le u :=
  ⟨h.reads.trans h'.reads, h.writes.trans h'.writes, h.reset.trans h'.reset,
    h.called.trans h'.called⟩

namespace Live

variable (s : Live)

def addRead (i : ℕ) : Live := { s with reads := insert i s.reads }
def addWrite (i : ℕ) : Live := { s with writes := insert i s.writes }
def addReset (op : Op) : Live := { s with reset := insert op s.reset }
def addCalled (op : Op) : Live := { s with called := insert op s.called }

theorem le_addRead (i : ℕ) : s.Le (s.addRead i) :=
  ⟨Set.subset_insert _ _, subset_rfl, subset_rfl, subset_rfl⟩

theorem le_addWrite (i : ℕ) : s.Le (s.addWrite i) :=
  ⟨subset_rfl, Set.subset_insert _ _, subset_rfl, subset_rfl⟩

theorem le_addReset (op : Op) : s.Le (s.addReset op) :=
  ⟨subset_rfl, subset_rfl, Set.subset_insert _ _, subset_rfl⟩

theorem le_addCalled (op : Op) : s.Le (s.addCalled op) :=
  ⟨subset_rfl, subset_rfl, subset_rfl, Set.subset_insert _ _⟩

end Live

/-- The operation waits for an answer that its `Next` reads. -/
def Op.waits : Op → Bool
  | .upload | .validate | .writeToLog | .postProcessingAfterCommit | .postProcessingAfterAbort
  | .releaseReadCounter | .insert | .upsert | .update | .delete => false
  | _ => true

def Op.SameArgs (s : Live) (a a' : OperationArgs K) : Op → Prop
  | .readOutside =>
    a'.readOutsideKey = a.readOutsideKey ∧ a'.readOutsideEntry = a.readOutsideEntry
  | .upload => a'.uploadSize = a.uploadSize ∧ ∀ i ∈ List.range a.uploadSize, i ∈ s.writes
  | .uploadVersionEntry i =>
    a'.uploadEntry i = a.uploadEntry i ∧ a.uploadEntry i ∈ s.writes ∧
      a'.uploadVersion i = a.uploadVersion i
  | .validate => a'.validateIndex = a.validateIndex ∧ ∀ i ∈ a.validateIndex, i ∈ s.reads
  | .updateReadEntryMaxCommitTs i =>
    a'.rereadEntry i = a.rereadEntry i ∧ a.rereadEntry i ∈ s.reads
  | .pushConflictTxnCommitTsLowerBound i => a'.pushTxnId i = a.pushTxnId i
  | .postProcessingAfterCommit =>
    a'.commitIndex = a.commitIndex ∧ ∀ i ∈ a.commitIndex, i ∈ s.writes
  | .postProcessingCommitEntryAfterCommit i =>
    a'.commitEntry i = a.commitEntry i ∧ a.commitEntry i ∈ s.writes
  | .postProcessingAfterAbort =>
    a'.deleteIndex = a.deleteIndex ∧ ∀ i ∈ a.deleteIndex, i ∈ s.writes
  | .postProcessingDeleteEntryAfterAbort i =>
    a'.deleteEntry i = a.deleteEntry i ∧ a.deleteEntry i ∈ s.writes
  | .releaseReadCounter =>
    a'.releaseIndex = a.releaseIndex ∧ ∀ i ∈ a.releaseIndex, i ∈ s.reads
  | .releaseReadCounterForEachEntry i =>
    a'.releaseEntry i = a.releaseEntry i ∧ a.releaseEntry i ∈ s.reads
  | .insert | .upsert | .update | .delete =>
    a'.writeKey = a.writeKey ∧ a'.writeRecord = a.writeRecord
  | .readDataStore => a'.readDataStoreKey = a.readDataStoreKey
  | _ => True

theorem Op.SameArgs.mono {s t : Live} {a a' : OperationArgs K} {op : Op}
    (h : op.SameArgs s a a') (hs : s.Le t) : op.SameArgs t a a' := by
  cases op with
  | uploadVersionEntry i => exact ⟨h.1, hs.writes h.2.1, h.2.2⟩
  | upload | postProcessingAfterCommit | postProcessingAfterAbort =>
    exact ⟨h.1, fun i hi => hs.writes (h.2 i hi)⟩
  | validate | releaseReadCounter => exact ⟨h.1, fun i hi => hs.reads (h.2 i hi)⟩
  | postProcessingCommitEntryAfterCommit i | postProcessingDeleteEntryAfterAbort i =>
    exact ⟨h.1, hs.writes h.2⟩
  | updateReadEntryMaxCommitTs i | releaseReadCounterForEachEntry i => exact ⟨h.1, hs.reads h.2⟩
  | _ => exact h

namespace ExecutionState

/-- The data agree on the live entries. The result is live once a request was dispatched, and the
records are the same if they were at the beginning, which `m` says. -/
structure Alike (m : Prop) (s : Live) (x x' : ExecutionState K V S) : Prop where
  services : x'.services = x.services
  memory : m → x'.memory = x.memory
  txnId : x'.txnId = x.txnId
  txnEntry : x'.txnEntry = x.txnEntry
  commitTimestampLocal : x'.commitTimestampLocal = x.commitTimestampLocal
  maxCommitTimestampOfWriters : x'.maxCommitTimestampOfWriters = x.maxCommitTimestampOfWriters
  commitTimestamp : x'.commitTimestamp = x.commitTimestamp
  isTransactionFinished : x'.isTransactionFinished = x.isTransactionFinished
  status : x'.status = x.status
  currentRequest : x'.currentRequest = x.currentRequest
  result : x.currentRequest ≠ none →
    x'.result = x.result ∧ x'.requestFinished = x.requestFinished
  keyReadSet : Pool.SameOn s.reads x.keyReadSet x'.keyReadSet
  keyWriteSet : Pool.SameOn s.writes x.keyWriteSet x'.keyWriteSet
  written : Set.Iio x.keyWriteSet.popIndex ⊆ s.writes
  readEntry : ∀ i ∈ s.writes, ∀ j, (x.keyWriteSet.entry i).readEntry = some j → j ∈ s.reads

namespace Alike

variable {m : Prop} {s : Live} {x x' : ExecutionState K V S}

theorem refl (m : Prop) (reset called : Set Op) (x : ExecutionState K V S) :
    Alike m ⟨Set.univ, Set.univ, reset, called⟩ x x :=
  ⟨rfl, fun _ => rfl, rfl, rfl, rfl, rfl, rfl, rfl, rfl, rfl, fun _ => ⟨rfl, rfl⟩, .refl _, .refl _,
    Set.subset_univ _, fun _ _ _ _ => trivial⟩

theorem read (h : Alike m s x x') {i : ℕ} (hi : i ∈ s.reads) :
    x'.keyReadSet.entry i = x.keyReadSet.entry i ∧ x'.keyReadSet.key i = x.keyReadSet.key i := by
  simp only [KeyReadSetEntryPool.entry, KeyReadSetEntryPool.key, h.keyReadSet.get hi, and_self]

theorem write (h : Alike m s x x') {i : ℕ} (hi : i ∈ s.writes) :
    x'.keyWriteSet.entry i = x.keyWriteSet.entry i ∧
      x'.keyWriteSet.key i = x.keyWriteSet.key i := by
  simp only [KeyWriteSetEntryPool.entry, KeyWriteSetEntryPool.key, h.keyWriteSet.get hi, and_self]

theorem findInReadSet [DecidableEq K] (h : Alike m s x x')
    (hs : Set.Iio x.keyReadSet.popIndex ⊆ s.reads) (key : SetKey K) :
    x'.keyReadSet.findInReadSet key = x.keyReadSet.findInReadSet key :=
  h.keyReadSet.find hs _

theorem findInWriteSet [DecidableEq K] (h : Alike m s x x') (key : SetKey K) :
    x'.keyWriteSet.findInWriteSet key = x.keyWriteSet.findInWriteSet key :=
  h.keyWriteSet.find h.written _

theorem filter_writes (h : Alike m s x x') (q : WriteSetEntry → Bool) :
    (List.range x'.keyWriteSet.popIndex).filter (fun i => q (x'.keyWriteSet.entry i)) =
      (List.range x.keyWriteSet.popIndex).filter fun i => q (x.keyWriteSet.entry i) := by
  rw [h.keyWriteSet.popIndex]
  apply List.filter_congr
  intro i hi
  rw [(h.write (h.written (List.mem_range.mp hi))).1]

theorem filter_reads (h : Alike m s x x') (hs : Set.Iio x.keyReadSet.popIndex ⊆ s.reads)
    (q : ReadSetEntry → Bool) :
    (List.range x'.keyReadSet.popIndex).filter (fun i => q (x'.keyReadSet.entry i)) =
      (List.range x.keyReadSet.popIndex).filter fun i => q (x.keyReadSet.entry i) := by
  rw [h.keyReadSet.popIndex]
  apply List.filter_congr
  intro i hi
  rw [(h.read (hs (List.mem_range.mp hi))).1]

theorem setResult (h : Alike m s x x') (r : Result) (b : Bool) :
    Alike m s { x with result := r, requestFinished := b }
      { x' with result := r, requestFinished := b } :=
  { h with result := fun _ => ⟨rfl, rfl⟩ }

end Alike

end ExecutionState

open ExecutionState

namespace TransactionExecution

section

variable (m : Prop) (b b' : List (Event K V))

/-- The executions agree on what is live, and since the histories `b` and `b'` the handler saw the
same of both. -/
structure Agree (s : Live) (e e' : TransactionExecution K V S) : Prop where
  data : Alike m s e.toExecutionState e'.toExecutionState
  operationVector : e'.operationVector = e.operationVector
  pending : e'.pending = e.pending
  log : ∃ l, e.log = b ++ l ∧ e'.log = b' ++ l
  moveToNext : ∀ op ∈ s.called, (e'.flags op).moveToNext = (e.flags op).moveToNext
  hasNext : ∀ op ∈ s.called, (e.flags op).moveToNext = true →
    (e'.flags op).hasNext = (e.flags op).hasNext
  finished : ∀ op ∈ s.reset, op.waits = true ∨ op = .writeToLog →
    e'.leafIsFinished op = e.leafIsFinished op
  handlerResult : ∀ op ∈ s.reset, op.waits = true → e.leafIsFinished op = true →
    e'.handlerResult op = e.handlerResult op
  args : ∀ op ∈ s.reset, op.SameArgs s e.args e'.args

end

namespace Agree

variable {m : Prop} {b b' : List (Event K V)} {s t : Live}
variable {e e' : TransactionExecution K V S} {op : Op}

theorem setData (h : Agree m b b' s e e') {x x' : ExecutionState K V S} (hd : Alike m t x x')
    (ht : t.reset = s.reset ∧ t.called = s.called) (hs : s.Le t) :
    Agree m b b' t { e with toExecutionState := x } { e' with toExecutionState := x' } where
  data := hd
  operationVector := h.operationVector
  pending := h.pending
  log := h.log
  moveToNext op hop := h.moveToNext op (ht.2 ▸ hop)
  hasNext op hop := h.hasNext op (ht.2 ▸ hop)
  finished op hop := h.finished op (ht.1 ▸ hop)
  handlerResult op hop := h.handlerResult op (ht.1 ▸ hop)
  args op hop := (h.args op (ht.1 ▸ hop)).mono hs

theorem sameData (h : Agree m b b' s e e') {x x' : ExecutionState K V S} (hd : Alike m s x x') :
    Agree m b b' s { e with toExecutionState := x } { e' with toExecutionState := x' } :=
  h.setData hd ⟨rfl, rfl⟩ (.refl s)

theorem setSlot (h : Agree m b b' s e e') (i : ℕ) (o : Option Op) :
    Agree m b b' s (e.setSlot i o) (e'.setSlot i o) :=
  { h with operationVector := congrArg (Slots.setSlot · i o) h.operationVector }

theorem push (h : Agree m b b' s e e') (op : Op) : Agree m b b' s (e.push op) (e'.push op) :=
  { h with operationVector := congrArg (Slots.pushBack · op) h.operationVector }

theorem issue (h : Agree m b b' s e e') (op : Op) (c : HandlerCall K) :
    Agree m b b' s (e.issue op c) (e'.issue op c) := by
  obtain ⟨l, hl, hl'⟩ := h.log
  refine { h with pending := congrArg (· ++ [(op, c)]) h.pending,
                  log := ⟨l ++ [.issued op c], ?_, ?_⟩ }
  · change e.log ++ _ = _
    rw [hl, List.append_assoc]
  · change e'.log ++ _ = _
    rw [hl', List.append_assoc]

theorem setFlags (h : Agree m b b' s e e') (op : Op) (f : OperationFlags) :
    Agree m b b' (s.addCalled op) (e.setFlags op f) (e'.setFlags op f) where
  data := { h.data with }
  operationVector := h.operationVector
  pending := h.pending
  log := h.log
  moveToNext y hy := by
    by_cases hyo : y = op
    · subst hyo
      simp [TransactionExecution.setFlags]
    · simpa [TransactionExecution.setFlags, hyo] using h.moveToNext y (hy.resolve_left hyo)
  hasNext y hy hm := by
    by_cases hyo : y = op
    · subst hyo
      simp [TransactionExecution.setFlags]
    · simp only [TransactionExecution.setFlags, Function.update_of_ne hyo] at hm ⊢
      exact h.hasNext y (hy.resolve_left hyo) hm
  finished := h.finished
  handlerResult := h.handlerResult
  args y hy := (h.args y hy).mono (s.le_addCalled _)

theorem setHasNext (h : Agree m b b' s e e') (hop : op ∈ s.called) (v : Bool) :
    Agree m b b' s (e.setHasNext op v) (e'.setHasNext op v) := by
  refine { h with moveToNext := fun y hy => ?_, hasNext := fun y hy hm => ?_ }
  · by_cases hyo : y = op
    · subst hyo
      simpa [TransactionExecution.setHasNext, TransactionExecution.setFlags] using h.moveToNext y hop
    · simpa [TransactionExecution.setHasNext, TransactionExecution.setFlags, hyo] using
        h.moveToNext y hy
  · by_cases hyo : y = op
    · subst hyo
      simp [TransactionExecution.setHasNext, TransactionExecution.setFlags]
    · simp only [TransactionExecution.setHasNext, TransactionExecution.setFlags,
        Function.update_of_ne hyo] at hm ⊢
      exact h.hasNext y hy hm

theorem setMoveToNext (h : Agree m b b' s e e') (op : Op) :
    Agree m b b' (s.addCalled op) (e.setMoveToNext op false)
      (e'.setMoveToNext op false) := by
  refine ⟨{ h.data with }, h.operationVector, h.pending, h.log, fun y hy => ?_, fun y hy hm => ?_,
    h.finished, h.handlerResult, fun y hy => (h.args y hy).mono
      (s.le_addCalled _)⟩
  · by_cases hyo : y = op
    · subst hyo
      simp [TransactionExecution.setMoveToNext, TransactionExecution.setFlags]
    · simpa [TransactionExecution.setMoveToNext, TransactionExecution.setFlags, hyo] using
        h.moveToNext y (hy.resolve_left hyo)
  · by_cases hyo : y = op
    · subst hyo
      simp [TransactionExecution.setMoveToNext, TransactionExecution.setFlags] at hm
    · simp only [TransactionExecution.setMoveToNext, TransactionExecution.setFlags,
        Function.update_of_ne hyo] at hm ⊢
      exact h.hasNext y (hy.resolve_left hyo) hm

theorem setArgs (h : Agree m b b' s e e') {a a' : OperationArgs K}
    (ha : ∀ y ∈ s.reset, y.SameArgs s a a') :
    Agree m b b' s { e with args := a } { e' with args := a' } :=
  { h with args := ha }

theorem leafIsFinished_setHandlerResult (e : TransactionExecution K V S)
    (r : HandlerResult op.Result) {y : Op} (hy : y ≠ op) :
    (e.setHandlerResult op r).leafIsFinished y = e.leafIsFinished y :=
  leafIsFinished_congr (Function.update_of_ne hy _ _)

theorem setHandlerResult (h : Agree m b b' s e e') {r r' : HandlerResult op.Result}
    (hf : (e'.setHandlerResult op r').leafIsFinished op =
      (e.setHandlerResult op r).leafIsFinished op)
    (hr : op.waits = true → (e.setHandlerResult op r).leafIsFinished op = true → r' = r)
    (ha : op.SameArgs s e.args e'.args) :
    Agree m b b' (s.addReset op) (e.setHandlerResult op r)
      (e'.setHandlerResult op r') where
  data := { h.data with }
  operationVector := h.operationVector
  pending := h.pending
  log := h.log
  moveToNext := h.moveToNext
  hasNext := h.hasNext
  finished y hy hw := by
    by_cases hyo : y = op
    · rw [hyo, hf]
    · rw [leafIsFinished_setHandlerResult _ _ hyo, leafIsFinished_setHandlerResult _ _ hyo]
      exact h.finished y (hy.resolve_left hyo) hw
  handlerResult y hy hw hfin := by
    by_cases hyo : y = op
    · subst hyo
      simpa [TransactionExecution.setHandlerResult] using hr hw hfin
    · rw [leafIsFinished_setHandlerResult _ _ hyo] at hfin
      simp only [TransactionExecution.setHandlerResult, Function.update_of_ne hyo]
      exact h.handlerResult y (hy.resolve_left hyo) hw hfin
  args y hy := by
    have hs : s.Le (s.addReset op) := s.le_addReset _
    rcases hy with rfl | hy
    · exact ha.mono hs
    · exact (h.args y hy).mono hs

theorem reset_composite (h : Agree m b b' s e e') (hop : op.waits = false)
    (hne : op ≠ .writeToLog) (ha : op.SameArgs s e.args e'.args) :
    Agree m b b' (s.addReset op) e e' where
  data := { h.data with }
  operationVector := h.operationVector
  pending := h.pending
  log := h.log
  moveToNext := h.moveToNext
  hasNext := h.hasNext
  finished y hy hw := by
    rcases hy with rfl | hy
    · exact absurd hw (by simp [hop, hne])
    · exact h.finished y hy hw
  handlerResult y hy hw := by
    rcases hy with rfl | hy
    · exact absurd (hop.symm.trans hw) (by simp)
    · exact h.handlerResult y hy hw
  args y hy := by
    have hs : s.Le (s.addReset op) := s.le_addReset _
    rcases hy with rfl | hy
    · exact ha.mono hs
    · exact (h.args y hy).mono hs

theorem leafIsFinished_resetResult (e : TransactionExecution K V S) (hop : op.waits = true)
    (hne : ∀ i, op ≠ .postProcessingCommitEntryAfterCommit i) :
    (e.resetResult op).leafIsFinished op = false := by
  cases op with
  | postProcessingCommitEntryAfterCommit i => exact absurd rfl (hne i)
  | update | delete => cases hop
  | _ =>
    simp [TransactionExecution.resetResult, TransactionExecution.setHandlerResult, leafIsFinished]

theorem resetResult (h : Agree m b b' s e e') (hop : op.waits = true)
    (hne : ∀ i, op ≠ .postProcessingCommitEntryAfterCommit i)
    (ha : op.SameArgs s e.args e'.args) :
    Agree m b b' (s.addReset op) (e.resetResult op) (e'.resetResult op) := by
  have hf := leafIsFinished_resetResult e hop hne
  apply h.setHandlerResult
  · exact (leafIsFinished_resetResult e' hop hne).trans hf.symm
  · intro _ hfin
    exact absurd (hf.symm.trans hfin) (by simp)
  · exact ha

theorem reset_entry (h : Agree m b b' s e e') {a a' : OperationArgs K} (hop : op.waits = true)
    (hne : ∀ i, op ≠ .postProcessingCommitEntryAfterCommit i)
    (ha : ∀ y ∈ s.reset, y ≠ op → y.SameArgs s e.args e'.args → y.SameArgs s a a')
    (hop' : op.SameArgs s a a') :
    Agree m b b' (s.addReset op)
      (TransactionExecution.resetResult { e with args := a } op)
      (TransactionExecution.resetResult { e' with args := a' } op) := by
  apply Agree.resetResult (e := { e with args := a }) _ hop hne hop'
  apply h.setArgs
  intro y hy
  by_cases hyo : y = op
  · exact hyo ▸ hop'
  · exact ha y hy hyo (h.args y hy)

theorem resetUploadVersionEntry (h : Agree m b b' s e e') (i : ℕ) {j : ℕ} (hj : j ∈ s.writes) :
    Agree m b b' (s.addReset (.uploadVersionEntry i))
      (e.resetUploadVersionEntry i j) (e'.resetUploadVersionEntry i j) := by
  apply h.reset_entry rfl (by simp)
  · intro y _ hyo hy
    cases y with
    | uploadVersionEntry l =>
      have hl : l ≠ i := fun hl => hyo (congrArg _ hl)
      simpa [Op.SameArgs, hl] using hy
    | _ => exact hy
  · obtain ⟨hent, -⟩ := h.data.write hj
    simp [Op.SameArgs, hent, h.data.txnId, hj]

theorem resetUpdateReadEntryMaxCommitTs (h : Agree m b b' s e e') (i : ℕ) {j : ℕ}
    (hj : j ∈ s.reads) :
    Agree m b b' (s.addReset (.updateReadEntryMaxCommitTs i))
      (e.resetUpdateReadEntryMaxCommitTs i j) (e'.resetUpdateReadEntryMaxCommitTs i j) := by
  apply h.reset_entry rfl (by simp)
  · intro y _ hyo hy
    cases y with
    | updateReadEntryMaxCommitTs l =>
      have hl : l ≠ i := fun hl => hyo (congrArg _ hl)
      simpa [Op.SameArgs, hl] using hy
    | _ => exact hy
  · simp [Op.SameArgs, hj]

theorem resetPushConflict (h : Agree m b b' s e e') (i : ℕ) (txnId : ℤ) :
    Agree m b b' (s.addReset (.pushConflictTxnCommitTsLowerBound i))
      (e.resetPushConflict i txnId) (e'.resetPushConflict i txnId) := by
  apply h.reset_entry rfl (by simp)
  · intro y _ hyo hy
    cases y with
    | pushConflictTxnCommitTsLowerBound l =>
      have hl : l ≠ i := fun hl => hyo (congrArg _ hl)
      simpa [Op.SameArgs, hl] using hy
    | _ => exact hy
  · simp [Op.SameArgs]

theorem resetPostProcessingCommitEntry (h : Agree m b b' s e e') (i : ℕ) {j : ℕ}
    (hj : j ∈ s.writes) :
    Agree m b b' (s.addReset (.postProcessingCommitEntryAfterCommit i))
      (e.resetPostProcessingCommitEntry i j) (e'.resetPostProcessingCommitEntry i j) := by
  have hself : Op.SameArgs s
      { e.args with commitEntry := Function.update e.args.commitEntry i j }
      { e'.args with commitEntry := Function.update e'.args.commitEntry i j }
      (.postProcessingCommitEntryAfterCommit i) := by
    simp [Op.SameArgs, hj]
  apply Agree.setHandlerResult (e := { e with args := _ })
  · apply h.setArgs
    intro y hy
    cases y with
    | postProcessingCommitEntryAfterCommit l =>
      by_cases hl : l = i
      · exact hl ▸ hself
      · simpa [Op.SameArgs, hl] using h.args _ hy
    | _ => exact h.args _ hy
  · simp [TransactionExecution.setHandlerResult, leafIsFinished]
  · exact fun _ _ => rfl
  · exact hself

theorem resetPostProcessingDeleteEntry (h : Agree m b b' s e e') (i : ℕ) {j : ℕ}
    (hj : j ∈ s.writes) :
    Agree m b b' (s.addReset (.postProcessingDeleteEntryAfterAbort i))
      (e.resetPostProcessingDeleteEntry i j) (e'.resetPostProcessingDeleteEntry i j) := by
  apply h.reset_entry rfl (by simp)
  · intro y _ hyo hy
    cases y with
    | postProcessingDeleteEntryAfterAbort l =>
      have hl : l ≠ i := fun hl => hyo (congrArg _ hl)
      simpa [Op.SameArgs, hl] using hy
    | _ => exact hy
  · simp [Op.SameArgs, hj]

theorem resetReleaseReadCounterForEachEntry (h : Agree m b b' s e e') (i : ℕ) {j : ℕ}
    (hj : j ∈ s.reads) :
    Agree m b b' (s.addReset (.releaseReadCounterForEachEntry i))
      (e.resetReleaseReadCounterForEachEntry i j)
      (e'.resetReleaseReadCounterForEachEntry i j) := by
  apply h.reset_entry rfl (by simp)
  · intro y _ hyo hy
    cases y with
    | releaseReadCounterForEachEntry l =>
      have hl : l ≠ i := fun hl => hyo (congrArg _ hl)
      simpa [Op.SameArgs, hl] using hy
    | _ => exact hy
  · simp [Op.SameArgs, hj]

theorem reset_list (h : Agree m b b' s e e') {a a' : OperationArgs K} (hop : op.waits = false)
    (hne : op ≠ .writeToLog)
    (ha : ∀ y ∈ s.reset, y ≠ op → y.SameArgs s e.args e'.args → y.SameArgs s a a')
    (hop' : op.SameArgs s a a') :
    Agree m b b' (s.addReset op) { e with args := a }
      { e' with args := a' } := by
  apply reset_composite (e := { e with args := a }) _ hop hne hop'
  apply h.setArgs
  intro y hy
  by_cases hyo : y = op
  · exact hyo ▸ hop'
  · exact ha y hy hyo (h.args y hy)

theorem resetUpload (h : Agree m b b' s e e') :
    Agree m b b' (s.addReset .upload) e.resetUpload e'.resetUpload := by
  apply h.reset_list rfl (by simp)
  · intro y _ hyo hy
    cases y with
    | upload => exact absurd rfl hyo
    | _ => exact hy
  · exact ⟨h.data.keyWriteSet.popIndex, fun i hi => h.data.written (List.mem_range.mp hi)⟩

theorem resetValidate (h : Agree m b b' s e e')
    (hs : Set.Iio e.keyReadSet.popIndex ⊆ s.reads) :
    Agree m b b' (s.addReset .validate) e.resetValidate
      e'.resetValidate := by
  apply h.reset_list rfl (by simp)
  · intro y _ hyo hy
    cases y with
    | validate => exact absurd rfl hyo
    | _ => exact hy
  · exact ⟨h.data.filter_reads hs fun r => !r.isUpdated,
      fun i hi => hs (List.mem_range.mp (List.mem_filter.mp hi).1)⟩

theorem resetPostProcessingAfterCommit (h : Agree m b b' s e e') :
    Agree m b b' (s.addReset .postProcessingAfterCommit)
      e.resetPostProcessingAfterCommit e'.resetPostProcessingAfterCommit := by
  apply h.reset_list rfl (by simp)
  · intro y _ hyo hy
    cases y with
    | postProcessingAfterCommit => exact absurd rfl hyo
    | _ => exact hy
  · exact ⟨h.data.filter_writes WriteSetEntry.needPostProcessing,
      fun i hi => h.data.written (List.mem_range.mp (List.mem_filter.mp hi).1)⟩

theorem resetPostProcessingAfterAbort (h : Agree m b b' s e e') :
    Agree m b b' (s.addReset .postProcessingAfterAbort)
      e.resetPostProcessingAfterAbort e'.resetPostProcessingAfterAbort := by
  apply h.reset_list rfl (by simp)
  · intro y _ hyo hy
    cases y with
    | postProcessingAfterAbort => exact absurd rfl hyo
    | _ => exact hy
  · exact ⟨h.data.filter_writes WriteSetEntry.needPostProcessing,
      fun i hi => h.data.written (List.mem_range.mp (List.mem_filter.mp hi).1)⟩

theorem resetReleaseReadCounter (h : Agree m b b' s e e')
    (hs : Set.Iio e.keyReadSet.popIndex ⊆ s.reads) :
    Agree m b b' (s.addReset .releaseReadCounter)
      e.resetReleaseReadCounter e'.resetReleaseReadCounter := by
  apply h.reset_list rfl (by simp)
  · intro y _ hyo hy
    cases y with
    | releaseReadCounter => exact absurd rfl hyo
    | _ => exact hy
  · exact ⟨h.data.filter_reads hs ReadSetEntry.needRelease,
      fun i hi => hs (List.mem_range.mp (List.mem_filter.mp hi).1)⟩

theorem resetWrite (h : Agree m b b' s e e') (key : SetKey K) (record : Option Addr)
    (hop : op = .insert ∨ op = .upsert ∨ op = .update ∨ op = .delete) :
    Agree m b b' (s.addReset op) (e.resetWrite key record)
      (e'.resetWrite key record) := by
  have hop' : op.SameArgs s (e.resetWrite key record).args (e'.resetWrite key record).args := by
    rcases hop with rfl | rfl | rfl | rfl <;> exact ⟨rfl, rfl⟩
  apply h.reset_list _ _ _ hop'
  · rcases hop with rfl | rfl | rfl | rfl <;> rfl
  · rintro rfl
    simp at hop
  · intro y _ _ hy
    cases y with
    | insert | upsert | update | delete => exact ⟨rfl, rfl⟩
    | _ => exact hy

theorem resetReadOutside (h : Agree m b b' s e e') (key : SetKey K) :
    Agree m b b' (s.addReset .readOutside) (e.resetReadOutside key)
      (e'.resetReadOutside key) := by
  have hnew : Agree m b b' s e.insertReadSet e'.insertReadSet :=
    h.sameData { h.data with keyReadSet := h.data.keyReadSet.new }
  have hself : Op.SameArgs s (e.resetReadOutside key).args (e'.resetReadOutside key).args
      .readOutside := by
    refine ⟨rfl, ?_⟩
    change e'.keyReadSet.new.popIndex - 1 = e.keyReadSet.new.popIndex - 1
    rw [Pool.popIndex_new, Pool.popIndex_new, h.data.keyReadSet.popIndex]
  apply Agree.setHandlerResult (e := { e.insertReadSet with args := _ })
   
  · apply hnew.setArgs
    intro y hy
    cases y with
    | readOutside => exact hself
    | _ => exact h.args _ hy
  · simp [TransactionExecution.setHandlerResult, leafIsFinished]
  · simp [TransactionExecution.setHandlerResult, leafIsFinished]
  · exact hself

theorem handlerCall (h : Agree m b b' s e e') (hop : op ∈ s.reset) :
    e'.handlerCall op = e.handlerCall op := by
  have ha := h.args op hop
  cases op with
  | readOutside =>
    simp only [TransactionExecution.handlerCall, ha.1, h.data.commitTimestampLocal]
  | uploadVersionEntry i =>
    simp only [TransactionExecution.handlerCall, ha.1, ha.2.2, (h.data.write ha.2.1).2]
  | setCommitTs =>
    simp only [TransactionExecution.handlerCall, h.data.txnId, h.data.commitTimestamp]
  | updateReadEntryMaxCommitTs i =>
    obtain ⟨hent, hkey⟩ := h.data.read ha.2
    simp only [TransactionExecution.handlerCall, ha.1, hent, hkey, h.data.commitTimestamp]
  | pushConflictTxnCommitTsLowerBound i =>
    have ha : e'.args.pushTxnId i = e.args.pushTxnId i := ha
    simp only [TransactionExecution.handlerCall, ha, h.data.commitTimestamp]
  | postProcessingCommitEntryAfterCommit i =>
    obtain ⟨hent, hkey⟩ := h.data.write ha.2
    simp only [TransactionExecution.handlerCall, ha.1, hent, hkey, h.data.commitTimestamp,
      h.data.txnId]
  | postProcessingDeleteEntryAfterAbort i =>
    obtain ⟨hent, hkey⟩ := h.data.write ha.2
    simp only [TransactionExecution.handlerCall, ha.1, hent, hkey]
  | releaseReadCounterForEachEntry i =>
    obtain ⟨hent, hkey⟩ := h.data.read ha.2
    simp only [TransactionExecution.handlerCall, ha.1, hent, hkey]
  | updateTxnStatusToCommit | updateTxnStatusToAbort =>
    simp only [TransactionExecution.handlerCall, h.data.txnId]
  | initTxn =>
    simp only [TransactionExecution.handlerCall, h.data.txnEntry, h.data.commitTimestampLocal]
  | readDataStore => exact congrArg (fun k => some (HandlerCall.readRecord k)) ha
  | _ => rfl

theorem issueCall (h : Agree m b b' s e e') (hop : op ∈ s.reset) :
    Agree m b b' s (e.issueCall op) (e'.issueCall op) := by
  unfold TransactionExecution.issueCall
  rw [h.handlerCall hop]
  cases e.handlerCall op with
  | none => exact h
  | some c => exact h.issue op c

theorem setResult (h : Agree m b b' s e e') (r : Result) :
    Agree m b b' s (e.setResult r) (e'.setResult r) :=
  h.sameData (h.data.setResult r true)

theorem notify (h : Agree m b b' s e e') (hc : e.currentRequest ≠ none) (f : Result → Result) :
    Agree m b b' s (e.setResult (f e.result)) (e'.setResult (f e'.result)) := by
  rw [(h.data.result hc).1]
  exact h.setResult _

theorem setResultRecord (h : Agree m b b' s e e') (hc : e.currentRequest ≠ none)
    (record : Option Addr) :
    Agree m b b' s (e.setResultRecord record) (e'.setResultRecord record) := by
  have hres := (h.data.result hc).1
  have hf : Agree m b b' s e.setResultFinished e'.setResultFinished := h.notify hc id
  cases hd : e.result.record with
  | none =>
    simp only [TransactionExecution.setResultRecord, hres, hd]
    exact h.setResult _
  | some dst =>
    cases record with
    | none =>
      simp only [TransactionExecution.setResultRecord, hres, hd]
      exact hf
    | some src =>
      simp only [TransactionExecution.setResultRecord, hres, hd]
      by_cases heq : dst = src
      · rw [if_pos heq, if_pos heq]
        exact hf
      · rw [if_neg heq, if_neg heq]
        apply hf.sameData
        exact { hf.data with memory := fun hm => by rw [h.data.memory hm] }

theorem write (h : Agree m b b' s e e') {i : ℕ} (hi : i ∈ s.reads)
    (hc : e.currentRequest ≠ none) (hk : e'.args.writeKey = e.args.writeKey) (isDeleted : Bool)
    (record : Option Addr) :
    ∃ t, s.Le t ∧ t.reads = s.reads ∧ t.reset = s.reset ∧ t.called = s.called ∧
      Agree m b b' t (e.write i isDeleted record) (e'.write i isDeleted record) := by
  obtain ⟨hent, -⟩ := h.data.read hi
  have hs : s.Le (s.addWrite e.keyWriteSet.popIndex) := s.le_addWrite _
  refine ⟨_, hs, rfl, rfl, rfl, ?_⟩
  have hw : Pool.SameOn (insert e.keyWriteSet.popIndex s.writes)
      ((e.setUpdated i).insertWriteSet e.args.writeKey ((e.keyReadSet.entry i).version + 1)
        isDeleted record i).keyWriteSet
      ((e'.setUpdated i).insertWriteSet e'.args.writeKey ((e'.keyReadSet.entry i).version + 1)
        isDeleted record i).keyWriteSet := by
    simp only [insertWriteSet, setUpdated, KeyWriteSetEntryPool.newWriteSetEntry, hent, hk,
      h.data.keyWriteSet.popIndex]
    exact h.data.keyWriteSet.new.overwrite (by simp) _
  have hset : Agree m b b' (s.addWrite e.keyWriteSet.popIndex)
      ((e.setUpdated i).insertWriteSet e.args.writeKey ((e.keyReadSet.entry i).version + 1)
        isDeleted record i)
      ((e'.setUpdated i).insertWriteSet e'.args.writeKey ((e'.keyReadSet.entry i).version + 1)
        isDeleted record i) := by
    refine h.setData (t := s.addWrite e.keyWriteSet.popIndex) ?_
      ⟨rfl, rfl⟩ hs
    refine { h.data with keyReadSet := h.data.keyReadSet.modify i _, keyWriteSet := hw,
                         written := fun j hj => ?_, readEntry := fun j hj l hl => ?_ }
    · have hj : j < e.keyWriteSet.new.popIndex := hj
      rw [Pool.popIndex_new] at hj
      rcases Nat.lt_succ_iff_lt_or_eq.mp hj with hj | hj
      · exact .inr (h.data.written hj)
      · exact .inl hj
    · simp only [setUpdated, KeyWriteSetEntryPool.newWriteSetEntry, KeyWriteSetEntryPool.entry] at hl
      by_cases hjp : j = e.keyWriteSet.popIndex
      · rw [hjp, Pool.get_modify_self _ _ (by simp)] at hl
        exact Option.some.inj hl ▸ hi
      · rw [Pool.get_modify_ne _ _ hjp, Pool.get_new] at hl
        exact h.data.readEntry j (hj.resolve_left hjp) l hl
  exact hset.notify hc id

theorem clearRelease (h : Agree m b b' s e e') (i : ℕ) :
    Agree m b b' s (e.clearRelease i) (e'.clearRelease i) :=
  h.sameData { h.data with keyReadSet := h.data.keyReadSet.modify i _ }

theorem modifyWrite (h : Agree m b b' s e e') (i : ℕ)
    (f : KeyWriteSetEntry K → KeyWriteSetEntry K)
    (hf : ∀ o, (f o).entry.readEntry = o.entry.readEntry) :
    Agree m b b' s { e with keyWriteSet := e.keyWriteSet.modify i f }
      { e' with keyWriteSet := e'.keyWriteSet.modify i f } := by
  apply h.sameData
  refine { h.data with keyWriteSet := h.data.keyWriteSet.modify i f, readEntry := ?_ }
  intro j hj l hl
  apply h.data.readEntry j hj l
  rw [← hl]
  exact (Pool.get_modify_field (fun o : KeyWriteSetEntry K => o.entry.readEntry) _ i j f hf).symm

theorem setMaxCommitTsOfWriters (h : Agree m b b' s e e') (candidate : ℤ) :
    Agree m b b' s (e.setMaxCommitTsOfWriters candidate)
      (e'.setMaxCommitTsOfWriters candidate) := by
  apply h.sameData
  refine { h.data with maxCommitTimestampOfWriters := ?_ }
  rw [h.data.maxCommitTimestampOfWriters]

theorem fillReadSet (h : Agree m b b' s e e') {i : ℕ}
    (hi : i ∈ s.reads ∨ i < e.keyReadSet.popIndex) (key : SetKey K) (entry : ReadSetEntry) :
    Agree m b b' (s.addRead i) (e.fillReadSet i key entry) (e'.fillReadSet i key entry) := by
  refine h.setData (t := s.addRead i) { h.data with
    keyReadSet := ?_, readEntry := fun j hj l hl => .inr (h.data.readEntry j hj l hl) } ⟨rfl, rfl⟩
    (s.le_addRead i)
  rcases hi with hi | hi
  · refine (h.data.keyReadSet.mono ?_).modify i _
    exact Set.insert_subset hi subset_rfl
  · exact h.data.keyReadSet.overwrite hi _

end Agree

end TransactionExecution

end Fugue
