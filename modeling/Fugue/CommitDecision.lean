import Fugue.LocalServices
import Fugue.TransactionRun

namespace Fugue

open ExecutionState

variable {K V S : Type}

namespace HandlerCall

def isUpdateTxnStatus : HandlerCall K → Bool
  | .updateTxnStatus .. => true
  | _ => false

def isCommitVersion : HandlerCall K → Bool
  | .commitVersion .. => true
  | _ => false

def isDeleteVersion : HandlerCall K → Bool
  | .deleteVersion .. => true
  | _ => false

def isReleaseReadCounter : HandlerCall K → Bool
  | .releaseReadCounter .. => true
  | _ => false

end HandlerCall

def callsOf (p : HandlerCall K → Bool) (log : List (Event K V)) : List (HandlerCall K) :=
  ((issuedCalls log).map Prod.snd).filter p

theorem callsOf_eq {p : HandlerCall K → Bool} (hp : ∀ c, p c = true → c.isOutcome = true)
    (log : List (Event K V)) : callsOf p log = (outcomeCalls log).filter p := by
  rw [callsOf, outcomeCalls, List.filter_filter]
  refine List.filter_congr fun c _ => ?_
  cases hc : p c with
  | true => rw [hp c hc, Bool.and_true]
  | false => rw [Bool.false_and]

def Passes {i : ℕ} (ts : ℤ) (reread : Reply V (.updateReadEntryMaxCommitTs i))
    (push : Reply V (.pushConflictTxnCommitTsLowerBound i)) : Prop :=
  Reread ts reread.isError reread.result ∧ (reread.result.txId = VersionEntry.kEmptyTxId ∨
    push.isError = false ∧ ¬ TxnEntry.Conflicts ts push.result)

/-- The answers for which a commit request with the sets `x` commits. -/
def Decision (x : ExecutionState K V S) (resp : (op : Op) → Reply V op) : Prop :=
  (∀ i < x.keyWriteSet.popIndex, (resp (.uploadVersionEntry i)).isError = false) ∧
    (resp .setCommitTs).isError = false ∧ (0 : ℤ) ≤ (resp .setCommitTs).result ∧
    ∀ i < x.unupdated.length, Passes (resp .setCommitTs).result
      (resp (.updateReadEntryMaxCommitTs i)) (resp (.pushConflictTxnCommitTsLowerBound i))

theorem Doomed.not_decision {x : ExecutionState K V S} {resp : (op : Op) → Reply V op}
    {log : List (Event K V)} (h : Doomed x log)
    (ha : ∀ op c r, Event.answered op c r ∈ log → r = resp op) : ¬ Decision x resp := by
  rintro ⟨hup, hts, hpos, hpass⟩
  rcases h with ⟨i, hi, c, r, hr, he⟩ | ⟨-, ⟨c, r, hr, he⟩ | ⟨ts, ⟨c, r, hr, -, rfl, -⟩, i, hi,
    c', r', hr', he⟩⟩
  · obtain rfl := ha _ _ _ hr
    rw [hup i hi] at he
    cases he
  · obtain rfl := ha _ _ _ hr
    rcases he with he | he
    · rw [hts] at he
      cases he
    · exact absurd he (Int.not_lt.mpr hpos)
  · obtain rfl := ha _ _ _ hr
    obtain rfl := ha _ _ _ hr'
    obtain ⟨hread, hp⟩ := hpass i hi
    rcases he with he | ⟨hid, c'', r'', hr'', he⟩
    · exact he hread
    · obtain rfl := ha _ _ _ hr''
      obtain ⟨hpe, hpc⟩ := hp.resolve_left hid
      rcases he with he | he
      · rw [hpe] at he
        cases he
      · exact hpc he

namespace CallOk

variable {x : ExecutionState K V S} {log : List (Event K V)} {gaveUp : Prop} {op : Op}
  {c : HandlerCall K}

theorem commitVersion (h : CallOk x log gaveUp op c) (hc : c.isCommitVersion = true) :
    ∃ j, op = .postProcessingCommitEntryAfterCommit j := by
  cases c <;> simp only [HandlerCall.isCommitVersion, Bool.false_eq_true] at hc
  cases op <;> simp [CallOk, uploadCall, deleteCall] at h ⊢

theorem deleteVersion (h : CallOk x log gaveUp op c) (hc : c.isDeleteVersion = true) :
    ∃ j, op = .postProcessingDeleteEntryAfterAbort j := by
  cases c <;> simp only [HandlerCall.isDeleteVersion, Bool.false_eq_true] at hc
  cases op <;> simp [CallOk, uploadCall, commitCall] at h ⊢

theorem releaseReadCounter (h : CallOk x log gaveUp op c) (hc : c.isReleaseReadCounter = true) :
    ∃ j, op = .releaseReadCounterForEachEntry j := by
  cases c <;> simp only [HandlerCall.isReleaseReadCounter, Bool.false_eq_true] at hc
  cases op <;> simp [CallOk, uploadCall, commitCall, deleteCall] at h ⊢

end CallOk

namespace TransactionExecution

variable [DecidableEq K] [Services S] {e e' : TransactionExecution K V S}

/-- An execution with any read and write set that is about to be asked to commit. -/
structure BeforeCommit (e : TransactionExecution K V S) : Prop where
  operationVector : e.operationVector = []
  pending : e.pending = []
  status : e.status = .ongoing
  unfinished : e.isTransactionFinished = false
  log : e.log = []

def Answers (resp : (op : Op) → Reply V op) (as : List (Action K V)) : Prop :=
  ∀ op r, Action.complete op r ∈ as → r = resp op

theorem answered_of_run {resp : (op : Op) → Reply V op} {as : List (Action K V)}
    (ha : Answers resp as) (hr : run step e as = some e')
    (he : ∀ op c r, Event.answered op c r ∈ e.log → r = resp op) {op : Op} {c : HandlerCall K}
    {r : Reply V op} (h : Event.answered op c r ∈ e'.log) : r = resp op := by
  induction as generalizing e with
  | nil => exact he op c r (Option.some.inj hr ▸ h)
  | cons a as ih =>
    obtain ⟨z, hz, hr⟩ := run_cons.mp hr
    refine ih (fun op r h => ha op r (List.mem_cons_of_mem _ h)) hr fun op c r h => ?_
    obtain ⟨new, hnew, hcomp⟩ := step_log hz
    rw [hnew] at h
    rcases List.mem_append.mp h with h | h
    · exact he op c r h
    · exact ha op r (hcomp op c r h ▸ List.mem_cons_self)

section

omit [DecidableEq K] [Services S]

variable {x : ExecutionState K V S} {resp : (op : Op) → Reply V op}

theorem Validated.decision (h : Validated x e)
    (ha : ∀ op c r, Event.answered op c r ∈ e.log → r = resp op) : Decision x resp := by
  obtain ⟨c, r, hr, hre, hts, hpos⟩ := h.timestamped
  obtain rfl := ha _ _ _ hr
  refine ⟨fun i hi => ?_, hre, hts ▸ hpos, fun i hi => ?_⟩
  · obtain ⟨c', r', hr', he⟩ := h.uploaded i hi
    rw [← ha _ _ _ hr']
    exact he
  · obtain ⟨c', r', hr', hread, hp⟩ := h.accepted i hi
    rw [← ha _ _ _ hr', hts]
    refine ⟨hread, hp.imp_right ?_⟩
    rintro ⟨c'', r'', hr'', hpush⟩
    rw [← ha _ _ _ hr'']
    exact hpush

end

section

variable {x : ExecutionState K V S} {gaveUp : Prop} {s : Stage}

omit [DecidableEq K] in
theorem filter_requests {p : HandlerCall K → Bool} {request : ℕ → Option (HandlerCall K)} {b : Bool}
    (hp : ∀ j c, request j = some c → p c = b) (l : List ℕ) :
    (l.filterMap request).filter p = if b then l.filterMap request else [] := by
  have hall : ∀ c ∈ l.filterMap request, p c = b := by
    intro c hc
    obtain ⟨j, -, hj⟩ := List.mem_filterMap.mp hc
    exact hp j c hj
  cases b with
  | true => exact List.filter_eq_self.mpr hall
  | false => exact List.filter_eq_nil_iff.mpr fun c hc => by simp [hall c hc]

theorem commit_request {y : ExecutionState K V S} {j : ℕ} {c : HandlerCall K}
    (h : (commitFamily : Family K V S).request y j = some c) :
    c.isUpdateTxnStatus = false ∧ c.isCommitVersion = true ∧ c.isDeleteVersion = false := by
  obtain ⟨k, -, rfl⟩ := Option.map_eq_some_iff.mp h
  exact ⟨rfl, rfl, rfl⟩

theorem delete_request {y : ExecutionState K V S} {j : ℕ} {c : HandlerCall K}
    (h : (deleteFamily : Family K V S).request y j = some c) :
    c.isUpdateTxnStatus = false ∧ c.isCommitVersion = false ∧ c.isDeleteVersion = true := by
  obtain ⟨k, -, rfl⟩ := Option.map_eq_some_iff.mp h
  exact ⟨rfl, rfl, rfl⟩

theorem Pipe.calls_finished (h : Pipe x gaveUp s e) (hfin : e.isTransactionFinished = true) :
    s = .committed ∧ e.status = .committed ∧
      callsOf HandlerCall.isUpdateTxnStatus e.log = [.updateTxnStatus x.txnId e.status] ∧
      callsOf HandlerCall.isCommitVersion e.log =
        e.postProcessIndex.filterMap ((commitFamily : Family K V S).request e.toExecutionState) ∧
      callsOf HandlerCall.isDeleteVersion e.log = [] ∨
    s = .aborted ∧ e.status = .aborted ∧
      callsOf HandlerCall.isUpdateTxnStatus e.log = [.updateTxnStatus x.txnId e.status] ∧
      callsOf HandlerCall.isCommitVersion e.log = [] ∧
      callsOf HandlerCall.isDeleteVersion e.log =
        e.postProcessIndex.filterMap ((deleteFamily : Family K V S).request e.toExecutionState) := by
  have hid := h.core.sets.txnId
  rw [callsOf_eq (fun c hc => by cases c <;> simp_all [HandlerCall.isUpdateTxnStatus,
      HandlerCall.isOutcome]), callsOf_eq (fun c hc => by cases c <;> simp_all
      [HandlerCall.isCommitVersion, HandlerCall.isOutcome]), callsOf_eq (fun c hc => by
      cases c <;> simp_all [HandlerCall.isDeleteVersion, HandlerCall.isOutcome]), h.outcome]
  rcases h.finished.mp hfin with rfl | rfl
  · have hst : e.status = .committed := h.facts.1
    refine .inl ⟨rfl, hst, ?_, ?_, ?_⟩ <;> rw [TransactionExecution.outcome]
    · rw [List.filter_cons_of_pos rfl, filter_requests fun j c hc => (commit_request hc).1, hid, hst]
      rfl
    · rw [List.filter_cons_of_neg (by simp [HandlerCall.isCommitVersion]),
        filter_requests fun j c hc => (commit_request hc).2.1]
      rfl
    · rw [List.filter_cons_of_neg (by simp [HandlerCall.isDeleteVersion]),
        filter_requests fun j c hc => (commit_request hc).2.2]
      rfl
  · have hst : e.status = .aborted := h.facts.1
    refine .inr ⟨rfl, hst, ?_, ?_, ?_⟩ <;> rw [TransactionExecution.outcome]
    · rw [List.filter_cons_of_pos rfl, filter_requests fun j c hc => (delete_request hc).1, hid, hst]
      rfl
    · rw [List.filter_cons_of_neg (by simp [HandlerCall.isCommitVersion]),
        filter_requests fun j c hc => (delete_request hc).2.1]
      rfl
    · rw [List.filter_cons_of_neg (by simp [HandlerCall.isDeleteVersion]),
        filter_requests fun j c hc => (delete_request hc).2.2]
      rfl

theorem Pipe.resolved (h : Pipe x gaveUp s e) {pre post : List (Event K V)} {op : Op}
    {c : HandlerCall K} (hl : e.log = pre ++ .issued op c :: post) :
    (c.isCommitVersion = true → (∃ r, Event.answered .updateTxnStatusToCommit
        (.updateTxnStatus x.txnId .committed) r ∈ pre ∧ r.isError = false) ∧
      ∃ ts, Timestamped pre ts ∧ ∃ i < x.keyWriteSet.popIndex,
        ∃ k, x.keyWriteSet.key i = some k ∧ c = commitCall x ts i k) ∧
    (c.isDeleteVersion = true ∨ c.isReleaseReadCounter = true →
      ∃ r, Event.answered .updateTxnStatusToAbort (.updateTxnStatus x.txnId .aborted) r ∈ pre ∧
        r.isError = false) := by
  have hok : CallOk x pre gaveUp op c := h.core.obeys pre op c post hl
  have hsub : pre ⊆ e.log := hl ▸ List.subset_append_left _ _
  have hcommit : ToldCommitted pre → ∃ r, Event.answered .updateTxnStatusToCommit
      (.updateTxnStatus x.txnId .committed) r ∈ pre ∧ r.isError = false := by
    rintro ⟨c', r, hr, he⟩
    obtain ⟨pre', -, hok'⟩ := h.core.callOk (h.core.issued_of_answered (hsub hr))
    obtain ⟨-, -, rfl⟩ := hok'
    exact ⟨r, hr, he⟩
  have habort : ToldAborted pre → ∃ r, Event.answered .updateTxnStatusToAbort
      (.updateTxnStatus x.txnId .aborted) r ∈ pre ∧ r.isError = false := by
    rintro ⟨c', r, hr, he⟩
    obtain ⟨pre', -, hok'⟩ := h.core.callOk (h.core.issued_of_answered (hsub hr))
    obtain ⟨-, rfl⟩ := hok'
    exact ⟨r, hr, he⟩
  constructor
  · intro hc
    obtain ⟨j, rfl⟩ := hok.commitVersion hc
    exact ⟨hcommit hok.1, hok.2⟩
  · rintro (hc | hc)
    · obtain ⟨j, rfl⟩ := hok.deleteVersion hc
      exact habort hok.1
    · obtain ⟨j, rfl⟩ := hok.releaseReadCounter hc
      exact habort hok.1

end

section

omit [DecidableEq K] [Services S]

theorem BeforeCommit.settled (h : BeforeCommit e) : Settled e where
  operationVector := h.operationVector
  pending := h.pending
  status := h.status
  unfinished := h.unfinished
  ranked ev hev := by rw [h.log] at hev; cases hev
  obeys x gaveUp pre op c post hl := by simp [h.log] at hl
  handled := by simp [h.log, issuedCalls, answeredCalls]
  outcome := by simp [h.log, outcomeCalls, issuedCalls]

end

theorem BeforeCommit.run {resp : (op : Op) → Reply V op} {as : List (Action K V)}
    (he : BeforeCommit e) (ha : Answers resp as)
    (hr : Fugue.run step (e.dispatch .commit) as = some e') :
    (∃ s, Pipe e.toExecutionState False s e') ∧
      ∀ op c r, Event.answered op c r ∈ e'.log → r = resp op := by
  constructor
  · exact run_invariant (I := fun z => ∃ s, Pipe e.toExecutionState False s z)
      (fun _ _ _ ⟨_, hi⟩ hs => hi.step hs) ⟨.upload, he.settled.dispatch_commit⟩ hr
  · intro op c r h
    refine answered_of_run ha hr (fun op c r h => ?_) h
    obtain ⟨l, hl⟩ := dispatch_log .commit e
    rw [hl, he.log] at h
    obtain ⟨p, -, hp⟩ := List.mem_map.mp h
    cases hp

theorem Pipe.decided {x : ExecutionState K V S} {s : Stage} {resp : (op : Op) → Reply V op}
    (hp : Pipe x False s e) (ha : ∀ op c r, Event.answered op c r ∈ e.log → r = resp op)
    (hfin : e.isTransactionFinished = true) :
    (e.status = .committed ↔ Decision x resp) ∧ (e.status = .aborted ↔ ¬ Decision x resp) ∧
      callsOf HandlerCall.isUpdateTxnStatus e.log = [.updateTxnStatus x.txnId e.status] := by
  rcases hp.calls_finished hfin with ⟨rfl, hst, hcalls, -⟩ | ⟨rfl, hst, hcalls, -⟩
  · have hd : Decision x resp := Validated.decision (e := e) hp.facts.2.1 ha
    simp [hst, hd, hcalls]
  · have hdoom : Doomed x e.log := hp.facts.2.1.resolve_left id
    have hd : ¬ Decision x resp := hdoom.not_decision ha
    simp [hst, hd, hcalls]

/-- Which answers commit a transaction, whatever the order and the time they arrive at, and what
the transaction issues. -/
theorem commit_decision {resp : (op : Op) → Reply V op} {as : List (Action K V)}
    (he : BeforeCommit e) (ha : Answers resp as)
    (hr : run step (e.dispatch .commit) as = some e') :
    (e'.isTransactionFinished = true →
      (e'.status = .committed ↔ Decision e.toExecutionState resp) ∧
      (e'.status = .aborted ↔ ¬ Decision e.toExecutionState resp) ∧
      callsOf HandlerCall.isUpdateTxnStatus e'.log = [.updateTxnStatus e.txnId e'.status]) ∧
    ∀ pre op c post, e'.log = pre ++ .issued op c :: post →
      (c.isCommitVersion = true →
        (∃ r, Event.answered .updateTxnStatusToCommit (.updateTxnStatus e.txnId .committed) r ∈ pre ∧
          r.isError = false) ∧
        ∃ i < e.keyWriteSet.popIndex, ∃ k, e.keyWriteSet.key i = some k ∧
          c = commitCall e.toExecutionState (resp .setCommitTs).result i k) ∧
      (c.isDeleteVersion = true ∨ c.isReleaseReadCounter = true →
        ∃ r, Event.answered .updateTxnStatusToAbort (.updateTxnStatus e.txnId .aborted) r ∈ pre ∧
          r.isError = false) := by
  obtain ⟨⟨s, hp⟩, hans⟩ := he.run ha hr
  refine ⟨hp.decided hans, fun pre op c post hl => ?_⟩
  obtain ⟨hcommit, habort⟩ := hp.resolved hl
  refine ⟨fun hc => ?_, habort⟩
  obtain ⟨htold, ts, ⟨c', r, hr', -, hts, -⟩, i, hi, k, hk, hcall⟩ := hcommit hc
  refine ⟨htold, i, hi, k, hk, ?_⟩
  have hresp : r = resp .setCommitTs := hans _ _ _ (hl ▸ List.mem_append_left _ hr')
  rw [hcall, ← hts, hresp]

def sampleExecution : TransactionExecution ℕ ℕ LocalServices :=
  { init ⟨.ofBase 0 100, .ofClock fun _ => 5⟩ (fun _ => 0) ⟨"t", 0⟩ with
    keyReadSet := (((Pool.ofCapacity 10).new.modify 0 fun _ =>
        ⟨some ⟨"t", 1⟩, { ReadSetEntry.reset 0 (-1) 0 int64Max true none with
          isUpdated := true }⟩).new.modify 1
      fun _ => ⟨some ⟨"t", 2⟩, .reset 0 (-1) 0 int64Max true none⟩)
    keyWriteSet := KeyWriteSetEntryPool.newWriteSetEntry (.ofCapacity 10) ⟨"t", 1⟩ 1 false (some 7)
      (some 0) false }

def sampleReply : (op : Op) → Reply ℕ op
  | .readOutside => ⟨false, ({ VersionEntry.blank none with
      version := 0, beginTs := 0, endTs := int64Max }, .blank none), []⟩
  | .setCommitTs => ⟨false, (6 : ℤ), []⟩
  | .updateReadEntryMaxCommitTs _ => ⟨false, { VersionEntry.blank none with
      version := 0, beginTs := 0, endTs := int64Max, maxCommitTs := 6 }, []⟩
  | op => ⟨false, op.defaultResult, []⟩

def sampleAnswer (op : Op) : Action ℕ ℕ := .complete op (sampleReply op)

def sampleCommit : List (Action ℕ ℕ) :=
  [sampleAnswer (.uploadVersionEntry 0), .visit 1, .visit 0, .tidy, sampleAnswer .setCommitTs,
    .visit 0, sampleAnswer (.updateReadEntryMaxCommitTs 0), .visit 1, .visit 0, .tidy, .visit 0,
    sampleAnswer .updateTxnStatusToCommit, .visit 0,
    sampleAnswer (.postProcessingCommitEntryAfterCommit 0), .visit 1, .visit 0, .tidy]

theorem answers_sampleCommit : Answers sampleReply sampleCommit := by
  intro op r h
  simp only [sampleCommit, sampleAnswer, List.mem_cons, reduceCtorEq, List.not_mem_nil, or_false,
    false_or] at h
  rcases h with h | h | h | h | h <;> cases h <;> rfl

theorem commit_decision_sample : ∃ e', run step (sampleExecution.dispatch .commit) sampleCommit =
    some e' ∧ e'.status = .committed ∧ Decision sampleExecution.toExecutionState sampleReply := by
  have h : (run step (sampleExecution.dispatch .commit) sampleCommit).map
      (fun e => (e.isTransactionFinished, e.status)) = some (true, .committed) := by decide +kernel
  obtain ⟨e', hr, he⟩ := Option.map_eq_some_iff.mp h
  obtain ⟨hfin, hst⟩ := Prod.mk.inj he
  have hd := (commit_decision ⟨rfl, rfl, rfl, rfl, rfl⟩ answers_sampleCommit hr).1 hfin
  exact ⟨e', hr, hst, hd.1.mp hst⟩

section

omit [DecidableEq K] [Services S]

theorem Serving.unfinished (h : Serving e) : e.isTransactionFinished = false := by
  obtain ⟨n, ho⟩ := h.opened
  exact ho.unfinished

end

theorem Alive.finished (h : Alive e) (hfin : e.isTransactionFinished = true) :
    ∃ x gaveUp s, Entries e.log x.keyReadSet.popIndex x ∧ Pipe x gaveUp s e := by
  cases h with
  | serving h => exact absurd (h.unfinished.symm.trans hfin) (by simp)
  | ending x gaveUp s entries h => exact ⟨x, gaveUp, s, entries, h⟩

def UploadCompleted (e : TransactionExecution K V S) (i : ℕ) : Prop :=
  ∃ k r, e.keyWriteSet.key i = some k ∧
    Event.answered (.uploadVersionEntry i) (uploadCall e.toExecutionState i k) r ∈ e.log ∧
    r.isError = false

omit [DecidableEq K] [Services S] in
theorem SameSets.uploadCall {x y : ExecutionState K V S} (h : SameSets x y) (i : ℕ) (k : SetKey K) :
    Fugue.uploadCall y i k = Fugue.uploadCall x i k := by
  simp only [Fugue.uploadCall, h.version, h.isDeleted, h.txnId]

omit [DecidableEq K] [Services S] in
theorem Core.uploadCompleted {x : ExecutionState K V S} {gaveUp : Prop} {n : ℕ}
    (h : Core x gaveUp n e) {i : ℕ} : Uploaded e.log i ↔ UploadCompleted e i := by
  constructor
  · rintro ⟨c, r, hr, he⟩
    obtain ⟨pre, -, hi, k, hk, rfl⟩ := h.callOk (h.issued_of_answered hr)
    refine ⟨k, r, (h.sets.writeKey i).trans hk, ?_, he⟩
    rw [SameSets.uploadCall h.sets]
    exact hr
  · rintro ⟨k, r, -, hr, he⟩
    exact ⟨_, r, hr, he⟩

/-- Each completed upload is committed or deleted, and each only once. -/
theorem uploads_resolved {e₀ : TransactionExecution K V S} {as : List (Action K V)}
    (hv : e₀.operationVector = []) (hp : e₀.pending = []) (hr : run step e₀.reset as = some e)
    (hfin : e.isTransactionFinished = true) :
    ∃ U : List ℕ, U.Nodup ∧
      (∀ i, i ∈ U ↔ i < e.keyWriteSet.popIndex ∧ UploadCompleted e i) ∧
      (e.status = .committed ∧ (∀ i < e.keyWriteSet.popIndex, i ∈ U) ∧
        (∃ ts, Timestamped e.log ts ∧ callsOf HandlerCall.isCommitVersion e.log =
          U.filterMap fun i => (e.keyWriteSet.key i).map (commitCall e.toExecutionState ts i)) ∧
        callsOf HandlerCall.isDeleteVersion e.log = [] ∨
      e.status = .aborted ∧ callsOf HandlerCall.isCommitVersion e.log = [] ∧
        callsOf HandlerCall.isDeleteVersion e.log =
          U.filterMap fun i => (e.keyWriteSet.key i).map (deleteCall e.toExecutionState i)) := by
  obtain ⟨x, gaveUp, s, entries, h⟩ := ((Alive.reset hv hp).run hr).finished hfin
  have hsize := h.core.sets.writeSize
  have hmem : s ≠ .upload → ∀ i, i ∈ e.postProcessIndex ↔
      i < e.keyWriteSet.popIndex ∧ UploadCompleted e i := by
    intro hs i
    rw [mem_postProcessIndex, hsize]
    refine and_congr_right fun hi => ?_
    rw [h.posted hs i hi, entries.unposted i hi, h.core.uploadCompleted]
    simp
  have hnodup : e.postProcessIndex.Nodup := List.nodup_range.filter _
  rcases h.calls_finished hfin with ⟨rfl, hst, -, hc, hd⟩ | ⟨rfl, hst, -, hc, hd⟩
  · refine ⟨e.postProcessIndex, hnodup, hmem (by simp), .inl ⟨hst, fun i hi => ?_, ?_, hd⟩⟩
    · rw [hmem (by simp)]
      exact ⟨hi, h.core.uploadCompleted.mp (h.facts.2.1.uploaded i (hsize ▸ hi))⟩
    · exact ⟨e.commitTimestamp, h.facts.2.1.timestamped, hc⟩
  · exact ⟨e.postProcessIndex, hnodup, hmem (by simp), .inr ⟨hst, hc, hd⟩⟩

def sampleTransaction : List (Action ℕ ℕ) :=
  [.dispatch .begin, sampleAnswer .initTxn, .visit 0, .tidy, .dispatch (.upsert ⟨"t", 1⟩ (some 7)),
    sampleAnswer .readOutside, .visit 1, .visit 0, .tidy, .dispatch .commit,
    sampleAnswer (.uploadVersionEntry 0), .visit 1, .visit 0, sampleAnswer .setCommitTs, .visit 0,
    .visit 0, .visit 0, sampleAnswer .updateTxnStatusToCommit, .visit 0,
    sampleAnswer (.postProcessingCommitEntryAfterCommit 0), .visit 2, .visit 0, .tidy]

theorem uploads_resolved_sample : ∃ e, run step sampleExecution.reset sampleTransaction = some e ∧
    e.keyWriteSet.popIndex = 1 ∧ UploadCompleted e 0 := by
  have h : (run step sampleExecution.reset sampleTransaction).map (fun e =>
      (e.isTransactionFinished, e.status, e.keyWriteSet.popIndex)) =
        some (true, .committed, 1) := by decide +kernel
  obtain ⟨e, hr, he⟩ := Option.map_eq_some_iff.mp h
  obtain ⟨hfin, he⟩ := Prod.mk.inj he
  obtain ⟨hst, hsize⟩ := Prod.mk.inj he
  obtain ⟨U, -, hU, ⟨-, hall, -⟩ | ⟨ha, -⟩⟩ := uploads_resolved rfl rfl hr hfin
  · exact ⟨e, hr, hsize, ((hU 0).mp (hall 0 (hsize ▸ Nat.one_pos))).2⟩
  · rw [hst] at ha
    cases ha

end TransactionExecution

end Fugue
