import Fugue.CommitProtocol

namespace Fugue

namespace TransactionExecution

open ExecutionState

variable {K V S : Type}

structure Core (x : ExecutionState K V S) (gaveUp : Prop) (n : ℕ)
    (e : TransactionExecution K V S) : Prop where
  sets : SameSets x e.toExecutionState
  ranked : ∀ ev ∈ e.log, ev.op.rank ≤ n
  agree : ∀ op c r, Event.answered op c r ∈ e.log → 0 < op.rank →
    e.handlerResult op = ⟨r.result, true, r.isError, 0⟩
  obeys : Obeys x e.log gaveUp
  handled : (issuedCalls e.log).Perm (answeredCalls e.log ++ e.pending)
  once : Once e.log

namespace Core

variable {x : ExecutionState K V S} {gaveUp : Prop} {n : ℕ} {e e' : TransactionExecution K V S}

theorem issued_of_answered (h : Core x gaveUp n e) {op : Op} {c : HandlerCall K} {r : Reply V op}
    (hr : Event.answered op c r ∈ e.log) : Event.issued op c ∈ e.log := by
  refine mem_issuedCalls.mp (h.handled.mem_iff.mpr (List.mem_append_left _ ?_))
  exact mem_answeredCalls.mpr ⟨r, hr⟩

theorem issued_of_pending (h : Core x gaveUp n e) {op : Op} {c : HandlerCall K}
    (hp : (op, c) ∈ e.pending) : Event.issued op c ∈ e.log :=
  mem_issuedCalls.mp (h.handled.mem_iff.mpr (List.mem_append_right _ hp))

theorem answered_or_pending (h : Core x gaveUp n e) {op : Op} {c : HandlerCall K}
    (hi : Event.issued op c ∈ e.log) :
    (∃ r, Event.answered op c r ∈ e.log) ∨ (op, c) ∈ e.pending :=
  (List.mem_append.mp (h.handled.mem_iff.mp (mem_issuedCalls.mpr hi))).imp_left
    mem_answeredCalls.mp

theorem leafIsFinished_of_answered (h : Core x gaveUp n e) {op : Op} {c : HandlerCall K}
    {r : Reply V op} (hr : Event.answered op c r ∈ e.log) (hop : 0 < op.rank) :
    e.leafIsFinished op = true :=
  leafIsFinished_of_result (h.agree op c r hr hop)

theorem callOk (h : Core x gaveUp n e) {op : Op} {c : HandlerCall K}
    (hi : Event.issued op c ∈ e.log) : ∃ pre, pre ⊆ e.log ∧ CallOk x pre gaveUp op c := by
  obtain ⟨pre, post, heq⟩ := List.append_of_mem hi
  exact ⟨pre, heq ▸ List.subset_append_left _ _, h.obeys pre op c post heq⟩

theorem reply_unique (h : Core x gaveUp n e) {c c' : HandlerCall K} {r r' : Reply V op}
    (hop : 0 < op.rank) (hr : Event.answered op c r ∈ e.log)
    (hr' : Event.answered op c' r' ∈ e.log) : r.result = r'.result ∧ r.isError = r'.isError := by
  have h1 := h.agree op c r hr hop
  rw [h.agree op c' r' hr' hop] at h1
  injection h1 with h2 h3 h4
  exact ⟨h2.symm, h4.symm⟩

theorem mono (h : Core x gaveUp n e) {m : ℕ} (hm : n ≤ m) : Core x gaveUp m e :=
  { h with ranked := fun ev hev => (h.ranked ev hev).trans hm }

theorem advance (h : Core x gaveUp n e) (hl : e'.log = e.log) (hp : e'.pending = e.pending)
    (hs : SameSets e.toExecutionState e'.toExecutionState)
    (hr : ∀ op c r, Event.answered op c r ∈ e.log → 0 < op.rank →
      e'.handlerResult op = e.handlerResult op) : Core x gaveUp n e' where
  sets := h.sets.trans hs
  ranked := hl ▸ h.ranked
  agree op c r ha hop := by
    rw [hl] at ha
    rw [hr op c r ha hop]
    exact h.agree op c r ha hop
  obeys := hl ▸ h.obeys
  handled := by rw [hl, hp]; exact h.handled
  once := hl ▸ h.once

theorem not_issued (h : Core x gaveUp n e) {y : Op} (hy : n < y.rank) (c : HandlerCall K) :
    Event.issued y c ∉ e.log := fun hc => Nat.not_le_of_lt hy (h.ranked _ hc)

theorem issue (h : Core x gaveUp n e) {y : Op} {c : HandlerCall K}
    (hc : CallOk x e.log gaveUp y c) (hnew : ∀ c', Event.issued y c' ∉ e.log) {m : ℕ} (hn : n ≤ m)
    (hy : y.rank ≤ m) :
    Core x gaveUp m ((e.setMoveToNext y false).issue y c) where
  sets := h.sets
  ranked := by
    intro ev hev
    rcases List.mem_append.mp hev with hev | hev
    · exact (h.ranked ev hev).trans hn
    · obtain rfl := List.mem_singleton.mp hev
      exact hy
  agree op c' r ha hop := by
    rcases List.mem_append.mp ha with ha | ha
    · exact h.agree op c' r ha hop
    · cases List.mem_singleton.mp ha
  obeys := h.obeys.issued hc
  handled := by
    change (issuedCalls (e.log ++ [.issued y c])).Perm
      (answeredCalls (e.log ++ [.issued y c]) ++ (e.pending ++ [(y, c)]))
    rw [issuedCalls_append, answeredCalls_append, ← List.append_assoc]
    simpa [answeredCalls, issuedCalls] using h.handled.append_right [(y, c)]
  once := h.once.issues (l := [(y, c)]) (List.nodup_singleton _) fun p hp c' => by
    obtain rfl := List.mem_singleton.mp hp
    exact hnew c'

variable [DecidableEq K]

theorem complete (h : Core x gaveUp n e) {op : Op} {c : HandlerCall K} {r : Reply V op}
    (hc : Completed op c r e e') (hf : 0 < op.rank → e.leafIsFinished op = false) :
    Core x gaveUp n e' := by
  have hi := h.issued_of_pending hc.mem
  refine ⟨?_, ?_, ?_, ?_, ?_, ?_⟩
  · rw [hc.data]
    exact ⟨h.sets.txnId, h.sets.writeSize, h.sets.writeKey, h.sets.write, h.sets.readSize,
      h.sets.readKey, h.sets.read⟩
  · intro ev hev
    rw [hc.log] at hev
    rcases List.mem_append.mp hev with hev | hev
    · exact h.ranked ev hev
    · obtain rfl := List.mem_singleton.mp hev
      exact (h.ranked _ hi :)
  · intro op' c' r' hr hop
    rw [hc.log] at hr
    rcases List.mem_append.mp hr with hr | hr
    · have hne : op' ≠ op := by
        intro heq
        have ht := h.leafIsFinished_of_answered hr hop
        rw [heq, hf (heq ▸ hop)] at ht
        cases ht
      rw [hc.other op' hne]
      exact h.agree op' c' r' hr hop
    · obtain hr := List.mem_singleton.mp hr
      injection hr with h1 h2 h3
      subst h1
      obtain rfl := eq_of_heq h3
      exact hc.self
  · rw [hc.log]
    exact h.obeys.answered op c r
  · rw [hc.log, hc.pending, issuedCalls_append, answeredCalls_append]
    simp only [issuedCalls, answeredCalls, List.filterMap_cons, List.filterMap_nil,
      List.append_nil, List.append_assoc, List.singleton_append]
    exact h.handled.trans ((List.perm_cons_erase hc.mem).append_left _)
  · rw [hc.log]
    exact h.once.answered op c r

variable [Services S]

theorem invoked (h : Core x gaveUp n e) {F : Family K V S} {l : List ℕ} {p : Op}
    (hi : Invoked F l (e.setMoveToNext p false) e') {m : ℕ} (hn : n < m)
    (hF : ∀ i, (F.child i).rank = m)
    (hc : ∀ q ∈ calls F.child F.request e.toExecutionState l, ∀ log', e.log ⊆ log' →
      CallOk x log' gaveUp q.1 q.2) : Core x gaveUp m e' where
  sets := by rw [hi.data]; exact h.sets
  ranked := by
    intro ev hev
    rw [hi.log] at hev
    rcases List.mem_append.mp hev with hev | hev
    · exact (h.ranked ev hev).trans (Nat.le_of_lt hn)
    · obtain ⟨q, hq, rfl⟩ := List.mem_map.mp hev
      obtain ⟨i, index, -, hqi, -⟩ := mem_calls.mp hq
      change q.1.rank ≤ m
      rw [hqi, hF]
  agree op c r ha hop := by
    rw [hi.log] at ha
    rcases List.mem_append.mp ha with ha | ha
    · have hr : e'.handlerResult op = e.handlerResult op := by
        refine hi.handlerResult op fun i _ hopi => ?_
        have := h.ranked _ ha
        rw [show Event.op (.answered op c r) = op from rfl, hopi, hF] at this
        omega
      rw [hr]
      exact h.agree op c r ha hop
    · obtain ⟨q, -, hq⟩ := List.mem_map.mp ha
      cases hq
  obeys := by
    rw [hi.log]
    exact h.obeys.issues hc
  handled := by
    rw [hi.log, hi.pending, issuedCalls_append, answeredCalls_append, issuedCalls_issues,
      answeredCalls_issues, List.append_nil, ← List.append_assoc]
    exact h.handled.append_right _
  once := by
    rw [hi.log]
    refine h.once.issues (calls_nodup F.child_injective _ _) fun q hq c => ?_
    obtain ⟨i, index, -, hqi, -⟩ := mem_calls.mp hq
    rw [hqi]
    exact h.not_issued (hF i ▸ hn) c

end Core

variable [DecidableEq K] [Services S]

def Family.member (F : Family K V S) (e : TransactionExecution K V S) (x : Op) : Prop :=
  ∃ i < (F.index e.args).length, x = F.child i

def Stage.parent : Stage → Option Op
  | .upload => some .upload
  | .validate => some .validate
  | .log => some .writeToLog
  | .commit => some .postProcessingAfterCommit
  | .delete => some .postProcessingAfterAbort
  | .release => some .releaseReadCounter
  | _ => none

/-- A push takes the place of a re-read that found the version locked. -/
def Stage.member (e : TransactionExecution K V S) : Stage → Op → Prop
  | .upload => uploadFamily.member e
  | .timestamp => (· = .setCommitTs)
  | .validate => fun x => validateFamily.member e x ∨ ∃ i < e.args.validateIndex.length,
      x = .pushConflictTxnCommitTsLowerBound i ∧
        e.flags (.updateReadEntryMaxCommitTs i) = ⟨true, true⟩
  | .status => (· = .updateTxnStatusToCommit)
  | .commit => commitFamily.member e
  | .abort => (· = .updateTxnStatusToAbort)
  | .delete => deleteFamily.member e
  | .release => releaseFamily.member e
  | _ => fun _ => False

theorem Stage.rank_of_member {s : Stage} {e : TransactionExecution K V S} {x : Op}
    (h : s.member e x) : x.rank = s.rank := by
  cases s with
  | upload => obtain ⟨i, -, rfl⟩ := h; rfl
  | timestamp => obtain rfl := h; rfl
  | validate => obtain ⟨i, -, rfl⟩ | ⟨i, -, rfl, -⟩ := h <;> rfl
  | status => obtain rfl := h; rfl
  | commit => obtain ⟨i, -, rfl⟩ := h; rfl
  | abort => obtain rfl := h; rfl
  | delete => obtain ⟨i, -, rfl⟩ := h; rfl
  | release => obtain ⟨i, -, rfl⟩ := h; rfl
  | log | committed | failing | aborted => exact h.elim

theorem Stage.member_congr {s : Stage} {e e' : TransactionExecution K V S} (ha : e'.args = e.args)
    (hf : e'.flags = e.flags) : s.member e' = s.member e := by
  have hF : ∀ F : Family K V S, F.member e' = F.member e :=
    fun F => funext fun x => by simp only [Family.member, ha]
  cases s <;> simp only [Stage.member, hF, ha, hf]

def outcome (e : TransactionExecution K V S) : Stage → List (HandlerCall K)
  | .status => [.updateTxnStatus e.txnId .committed]
  | .commit | .committed => .updateTxnStatus e.txnId .committed ::
      e.postProcessIndex.filterMap (commitFamily.request e.toExecutionState)
  | .abort => [.updateTxnStatus e.txnId .aborted]
  | .delete | .release | .aborted => .updateTxnStatus e.txnId .aborted ::
      e.postProcessIndex.filterMap (deleteFamily.request e.toExecutionState)
  | _ => []

theorem outcome_congr {s : Stage} {e e' : TransactionExecution K V S} (hi : e'.txnId = e.txnId)
    (hw : e'.keyWriteSet = e.keyWriteSet) (hc : e'.commitTimestamp = e.commitTimestamp) :
    e'.outcome s = e.outcome s := by
  cases s <;> simp only [outcome, postProcessIndex, commitFamily, deleteFamily, hi, hw, hc]

structure UploadFacts (x : ExecutionState K V S) (e : TransactionExecution K V S) : Prop where
  size : e.args.uploadSize = x.keyWriteSet.popIndex
  entry : ∀ i < x.keyWriteSet.popIndex, e.args.uploadEntry i = i
  status : e.status = .ongoing ∨
    e.status = .waitForAborting ∧ ∃ i < x.keyWriteSet.popIndex, UploadFailed e.log i
  waiting : ∀ i < x.keyWriteSet.popIndex, (e.flags (.uploadVersionEntry i)).moveToNext = false →
    (e.keyWriteSet.entry i).needPostProcessing = (x.keyWriteSet.entry i).needPostProcessing
  moved : ∀ i < x.keyWriteSet.popIndex, (e.flags (.uploadVersionEntry i)).moveToNext = true →
    (∃ c r, Event.answered (.uploadVersionEntry i) c r ∈ e.log ∧ r.isError = false ∧
      (r.result : ℤ) ≤ e.maxCommitTimestampOfWriters) ∧
        (e.keyWriteSet.entry i).needPostProcessing = true ∨
    UploadFailed e.log i ∧ e.status = .waitForAborting ∧
      (e.keyWriteSet.entry i).needPostProcessing = (x.keyWriteSet.entry i).needPostProcessing

structure ValidateFacts (x : ExecutionState K V S) (e : TransactionExecution K V S) : Prop where
  uploaded : AllUploaded x e.log
  timestamped : Timestamped e.log e.commitTimestamp
  index : e.args.validateIndex = x.unupdated
  status : e.status = .ongoing ∨ e.status = .waitForAborting ∧
    ∃ i < x.unupdated.length, Rejected e.log e.commitTimestamp i
  push : ∀ ev ∈ e.log, ∀ i, ev.op = .pushConflictTxnCommitTsLowerBound i →
    (e.flags (.updateReadEntryMaxCommitTs i)).moveToNext = true
  direct : ∀ i < x.unupdated.length, e.flags (.updateReadEntryMaxCommitTs i) = ⟨true, false⟩ →
    Accepted e.log e.commitTimestamp i ∨
      Rejected e.log e.commitTimestamp i ∧ e.status = .waitForAborting
  locked : ∀ i < x.unupdated.length, e.flags (.updateReadEntryMaxCommitTs i) = ⟨true, true⟩ →
    (∃ c r, Event.answered (.updateReadEntryMaxCommitTs i) c r ∈ e.log ∧
      Reread e.commitTimestamp r.isError r.result ∧ r.result.txId ≠ VersionEntry.kEmptyTxId) ∧
    ((e.flags (.pushConflictTxnCommitTsLowerBound i)).moveToNext = true →
      Pushed e.log e.commitTimestamp i ∨
        PushFailed e.log e.commitTimestamp i ∧ e.status = .waitForAborting)

structure Validated (x : ExecutionState K V S) (e : TransactionExecution K V S) : Prop where
  uploaded : AllUploaded x e.log
  timestamped : Timestamped e.log e.commitTimestamp
  accepted : AllAccepted x e.log e.commitTimestamp

def Facts (x : ExecutionState K V S) (gaveUp : Prop) (e : TransactionExecution K V S) :
    Stage → Prop
  | .upload => UploadFacts x e
  | .timestamp => e.status = .ongoing ∧ AllUploaded x e.log ∧
      (e.flags .setCommitTs).moveToNext = false
  | .validate => ValidateFacts x e
  | .log => e.status = .ongoing ∧ Validated x e
  | .status => e.status = .ongoing ∧ Validated x e ∧
      (e.flags .updateTxnStatusToCommit).moveToNext = false
  | .commit => e.status = .ongoing ∧ Validated x e ∧ ToldCommitted e.log
  | .committed => e.status = .committed ∧ Validated x e ∧ ToldCommitted e.log
  | .failing => e.status = .aborting ∧ Doomed x e.log ∧ e.operationVector ≠ []
  | .abort => e.status ≠ .aborting ∧ (gaveUp ∨ Doomed x e.log) ∧
      (e.flags .updateTxnStatusToAbort).moveToNext = false
  | .delete | .release => e.status ≠ .aborting ∧ (gaveUp ∨ Doomed x e.log) ∧ ToldAborted e.log
  | .aborted => e.status = .aborted ∧ (gaveUp ∨ Doomed x e.log) ∧ ToldAborted e.log

def Posted (x : ExecutionState K V S) (e : TransactionExecution K V S) : Prop :=
  ∀ i < x.keyWriteSet.popIndex, ((e.keyWriteSet.entry i).needPostProcessing = true ↔
    (x.keyWriteSet.entry i).needPostProcessing = true ∨ Uploaded e.log i)

/-- The invariant of a commit or abort request that was made with the sets `x`. -/
structure Pipe (x : ExecutionState K V S) (gaveUp : Prop) (s : Stage)
    (e : TransactionExecution K V S) : Prop where
  core : Core x gaveUp s.rank e
  stacked : Stacked s.parent (s.member e) e
  outcome : outcomeCalls e.log = e.outcome s
  finished : e.isTransactionFinished = true ↔ s = .committed ∨ s = .aborted
  posted : s ≠ .upload → Posted x e
  facts : Facts x gaveUp e s

variable {x : ExecutionState K V S} {gaveUp : Prop} {s : Stage} {e e' : TransactionExecution K V S}

theorem Pipe.rank_of_slot (h : Pipe x gaveUp s e) {i : ℕ} {op : Op}
    (hi : e.operationVector.slot i = some op) : 0 < op.rank := by
  rcases h.stacked.occupied.held_of_slot hi with hp | ⟨hm, -⟩
  · cases s <;> cases hp <;> exact Nat.succ_pos _
  · rw [Stage.rank_of_member hm]
    cases s <;> exact Nat.succ_pos _

omit [Services S] in
theorem Validated.complete (h : Validated x e) {op : Op} {c : HandlerCall K} {r : Reply V op}
    (hc : Completed op c r e e') : Validated x e' where
  uploaded := h.uploaded.mono hc.log_subset
  timestamped := by rw [hc.commitTimestamp]; exact h.timestamped.mono hc.log_subset
  accepted := by rw [hc.commitTimestamp]; exact h.accepted.mono hc.log_subset

omit [Services S] in
theorem UploadFacts.complete (h : UploadFacts x e) {op : Op} {c : HandlerCall K} {r : Reply V op}
    (hc : Completed op c r e e') : UploadFacts x e' where
  size := hc.args ▸ h.size
  entry := hc.args ▸ h.entry
  status := by
    rw [hc.status]
    exact h.status.imp_right fun ⟨hs, i, hi, hf⟩ => ⟨hs, i, hi, hf.mono hc.log_subset⟩
  waiting i hi hm := by
    rw [hc.keyWriteSet]
    exact h.waiting i hi (hc.flags ▸ hm)
  moved i hi hm := by
    rw [hc.keyWriteSet, hc.status, hc.maxCommitTimestampOfWriters]
    rcases h.moved i hi (hc.flags ▸ hm) with ⟨⟨c', r', hr, he⟩, hp⟩ | ⟨hf, hs, hp⟩
    · exact .inl ⟨⟨c', r', hc.log_subset hr, he⟩, hp⟩
    · exact .inr ⟨hf.mono hc.log_subset, hs, hp⟩

omit [Services S] in
theorem ValidateFacts.complete (h : ValidateFacts x e) {op : Op} {c : HandlerCall K}
    {r : Reply V op} (hc : Completed op c r e e') (hi : Event.issued op c ∈ e.log) :
    ValidateFacts x e' where
  uploaded := h.uploaded.mono hc.log_subset
  timestamped := by rw [hc.commitTimestamp]; exact h.timestamped.mono hc.log_subset
  index := hc.args ▸ h.index
  status := by
    rw [hc.status, hc.commitTimestamp]
    exact h.status.imp_right fun ⟨hs, i, hi, hf⟩ => ⟨hs, i, hi, hf.mono hc.log_subset⟩
  push ev hev i hop := by
    rw [hc.flags]
    rw [hc.log] at hev
    rcases List.mem_append.mp hev with hev | hev
    · exact h.push ev hev i hop
    · obtain rfl := List.mem_singleton.mp hev
      exact h.push _ hi i hop
  direct i hi hf := by
    rw [hc.commitTimestamp, hc.status]
    exact (h.direct i hi (hc.flags ▸ hf)).imp (fun ha => ha.mono hc.log_subset)
      fun ⟨hr, hs⟩ => ⟨hr.mono hc.log_subset, hs⟩
  locked i hi hf := by
    rw [hc.commitTimestamp, hc.status]
    obtain ⟨⟨c', r', hr, hrr⟩, hp⟩ := h.locked i hi (hc.flags ▸ hf)
    refine ⟨⟨c', r', hc.log_subset hr, hrr⟩, fun hm => ?_⟩
    exact (hp (hc.flags ▸ hm)).imp (fun ha => ha.mono hc.log_subset)
      fun ⟨hr, hs⟩ => ⟨hr.mono hc.log_subset, hs⟩

omit [Services S] in
theorem Facts.complete (h : Facts x gaveUp e s) {op : Op} {c : HandlerCall K} {r : Reply V op}
    (hc : Completed op c r e e') (hi : Event.issued op c ∈ e.log) : Facts x gaveUp e' s := by
  have hl := hc.log_subset
  cases s with
  | upload => exact UploadFacts.complete h hc
  | timestamp => exact ⟨hc.status.trans h.1, h.2.1.mono hl, hc.flags ▸ h.2.2⟩
  | validate => exact ValidateFacts.complete h hc hi
  | log => exact ⟨hc.status.trans h.1, h.2.complete hc⟩
  | status => exact ⟨hc.status.trans h.1, h.2.1.complete hc, hc.flags ▸ h.2.2⟩
  | commit | committed => exact ⟨hc.status.trans h.1, h.2.1.complete hc, h.2.2.mono hl⟩
  | failing =>
    exact ⟨hc.status.trans h.1, h.2.1.mono hl, by rw [hc.operationVector]; exact h.2.2⟩
  | abort =>
    exact ⟨hc.status ▸ h.1, h.2.1.imp_right fun hd => hd.mono hl, hc.flags ▸ h.2.2⟩
  | delete | release =>
    exact ⟨hc.status ▸ h.1, h.2.1.imp_right fun hd => hd.mono hl, h.2.2.mono hl⟩
  | aborted =>
    exact ⟨hc.status.trans h.1, h.2.1.imp_right fun hd => hd.mono hl, h.2.2.mono hl⟩

theorem Pipe.complete (h : Pipe x gaveUp s e) {op : Op} {c : HandlerCall K} {r : Reply V op}
    (hc : Completed op c r e e') : Pipe x gaveUp s e' := by
  obtain ⟨hm, hf⟩ := h.stacked.pending_member _ hc.mem
  refine ⟨h.core.complete hc fun _ => hf, ?_, ?_, ?_, ?_, ?_⟩
  · rw [Stage.member_congr hc.args hc.flags]
    exact h.stacked.complete hc
  · rw [hc.log, outcomeCalls_answered, h.outcome,
      outcome_congr hc.txnId hc.keyWriteSet hc.commitTimestamp]
  · rw [hc.isTransactionFinished]
    exact h.finished
  · intro hs i hi
    rw [hc.keyWriteSet, h.posted hs i hi]
    refine or_congr_right ⟨fun hu => hu.mono hc.log_subset, ?_⟩
    rintro ⟨c', r', hr, he⟩
    rw [hc.log] at hr
    rcases List.mem_append.mp hr with hr | hr
    · exact ⟨c', r', hr, he⟩
    · injection List.mem_singleton.mp hr with hop
      have hrank := Stage.rank_of_member hm
      rw [← hop] at hrank
      cases s <;> first | exact absurd rfl hs | simp [Op.rank, Stage.rank] at hrank
  · exact h.facts.complete hc (h.core.issued_of_pending hc.mem)

end TransactionExecution

end Fugue
