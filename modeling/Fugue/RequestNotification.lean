import Fugue.ExecutorSteps
import Fugue.LocalServices

namespace Fugue

open TransactionExecutor TransactionExecution

variable {K V S : Type}

/-- The operations that notify the request in the end, or leave that to their successor. -/
def Op.notifies : Op → Bool
  | .readOutside | .upload | .setCommitTs | .validate | .writeToLog | .updateTxnStatusToCommit
  | .updateTxnStatusToAbort | .initTxn | .readDataStore => true
  | _ => false

namespace TransactionExecution

/-- The current request was notified, or will be by an operation that is on the stack or that an
abort puts there. -/
def Answering (e : TransactionExecution K V S) : Prop :=
  e.currentRequest = none ∨ e.requestFinished = true ∨ e.status = .aborting ∨
    ∃ i op, e.operationVector.slot i = some op ∧ op.notifies = true

structure Carries (x y : ExecutionState K V S) : Prop where
  current : y.currentRequest = x.currentRequest
  finished : x.requestFinished = true → y.requestFinished = true

variable [DecidableEq K] [Services S] {e e' e₁ : TransactionExecution K V S}

omit [DecidableEq K] [Services S] in
theorem setResultRecord_told (a : Option Addr) :
    (e.setResultRecord a).requestFinished = true ∧
      (e.setResultRecord a).currentRequest = e.currentRequest := by
  unfold setResultRecord
  split
  · exact ⟨rfl, rfl⟩
  · split <;> exact ⟨rfl, rfl⟩
  · exact ⟨rfl, rfl⟩

omit [DecidableEq K] [Services S] in
theorem internalRead_told (h : e.internalRead = .ok e') :
    e'.requestFinished = true ∧ e'.currentRequest = e.currentRequest := by
  unfold internalRead at h
  split at h
  · cases h
  · cases h
    split
    · exact ⟨rfl, rfl⟩
    · exact setResultRecord_told _
  · cases h
    exact ⟨rfl, rfl⟩

theorem next_told {op : Op} {o : Option Op} (h : next op e = .ok (o, e₁)) :
    Carries e.toExecutionState e₁.toExecutionState ∧ (op.notifies = true →
      e₁.requestFinished = true ∨ e₁.status = .aborting ∨ ∃ y, o = some y ∧ y.notifies = true) := by
  unfold next at h
  cases op with
  | readOutside =>
    simp only [nextImpl] at h
    split at h
    · cases h
      exact ⟨⟨rfl, fun _ => rfl⟩, fun _ => .inl rfl⟩
    · cases hr : (e.setFlags .readOutside ⟨true, true⟩).internalRead with
      | error m =>
        rw [hr] at h
        cases h
      | ok z =>
        rw [hr] at h
        cases h
        obtain ⟨hf, hc⟩ := internalRead_told hr
        exact ⟨⟨hc, fun _ => hf⟩, fun _ => .inl hf⟩
  | readDataStore =>
    simp only [nextImpl, readDataStoreNext, noNext] at h
    cases h
    split
    · exact ⟨⟨rfl, fun _ => rfl⟩, fun _ => .inl rfl⟩
    · split
      · exact ⟨⟨rfl, fun _ => rfl⟩, fun _ => .inl rfl⟩
      · next a _ =>
        obtain ⟨hf, hc⟩ := setResultRecord_told
          (e := e.setFlags .readDataStore ⟨true, true⟩) (some a)
        exact ⟨⟨hc, fun _ => hf⟩, fun _ => .inl hf⟩
  | initTxn =>
    simp only [nextImpl] at h
    split at h <;> cases h
    · exact ⟨⟨rfl, id⟩, fun _ => .inr (.inr ⟨_, rfl, rfl⟩)⟩
    · exact ⟨⟨rfl, fun _ => rfl⟩, fun _ => .inl rfl⟩
  | upload =>
    simp only [nextImpl] at h
    split at h <;> cases h
    · exact ⟨⟨rfl, id⟩, fun _ => .inr (.inl rfl)⟩
    · exact ⟨⟨rfl, id⟩, fun _ => .inr (.inr ⟨_, rfl, rfl⟩)⟩
  | setCommitTs =>
    simp only [nextImpl] at h
    split at h <;> cases h
    · exact ⟨⟨rfl, id⟩, fun _ => .inr (.inl rfl)⟩
    · exact ⟨⟨rfl, id⟩, fun _ => .inr (.inr ⟨_, rfl, rfl⟩)⟩
  | validate =>
    simp only [nextImpl] at h
    split at h <;> cases h
    · exact ⟨⟨rfl, id⟩, fun _ => .inr (.inl rfl)⟩
    · exact ⟨⟨rfl, id⟩, fun _ => .inr (.inr ⟨_, rfl, rfl⟩)⟩
  | writeToLog =>
    cases h
    exact ⟨⟨rfl, id⟩, fun _ => .inr (.inr ⟨_, rfl, rfl⟩)⟩
  | updateTxnStatusToCommit =>
    simp only [nextImpl] at h
    split at h <;> cases h
    exact ⟨⟨rfl, fun _ => rfl⟩, fun _ => .inl rfl⟩
  | updateTxnStatusToAbort =>
    simp only [nextImpl] at h
    split at h <;> cases h
    exact ⟨⟨rfl, fun _ => rfl⟩, fun _ => .inl rfl⟩
  | insert =>
    simp only [nextImpl, insertNext, noNext] at h
    cases h
    refine ⟨?_, fun hn => by cases hn⟩
    repeat' split
    all_goals exact ⟨rfl, fun _ => rfl⟩
  | upsert =>
    simp only [nextImpl, upsertNext, noNext] at h
    cases h
    refine ⟨?_, fun hn => by cases hn⟩
    split
    · exact ⟨rfl, fun _ => rfl⟩
    · exact ⟨rfl, id⟩
  | postProcessingCommitEntryAfterCommit i =>
    simp only [nextImpl, clearReleaseOfWrite] at h
    split at h <;> cases h
    refine ⟨?_, fun hn => by cases hn⟩
    split <;> exact ⟨rfl, id⟩
  | postProcessingDeleteEntryAfterAbort i =>
    simp only [nextImpl, deleteEntryNext] at h
    refine ⟨?_, fun hn => by cases hn⟩
    split at h
    · cases h
    · split at h <;> cases h
      · split <;> exact ⟨rfl, id⟩
      · exact ⟨rfl, id⟩
  | _ =>
    refine ⟨?_, fun hn => by cases hn⟩
    simp only [nextImpl, uploadVersionEntryNext, updateReadEntryMaxCommitTsNext,
      pushConflictNext] at h
    repeat' split at h
    all_goals cases h
    all_goals exact ⟨rfl, id⟩

theorem call_told (op : Op) (e : TransactionExecution K V S) :
    Carries e.toExecutionState (call op e).toExecutionState ∧ (call op e).status = e.status := by
  rw [call_data]
  cases op with
  | update =>
    simp only [callData, updateCallImpl]
    repeat' split
    all_goals exact ⟨⟨rfl, fun _ => rfl⟩, rfl⟩
  | delete =>
    simp only [callData, deleteCallImpl]
    repeat' split
    all_goals exact ⟨⟨rfl, fun _ => rfl⟩, rfl⟩
  | writeToLog =>
    simp only [callData, writeToLogCallImpl]
    split <;> exact ⟨⟨rfl, id⟩, rfl⟩
  | _ => exact ⟨⟨rfl, id⟩, rfl⟩

namespace Answering

omit [DecidableEq K] [Services S] in
theorem carry (h : Carries e.toExecutionState e'.toExecutionState) (hs : e'.status = e.status)
    (hslot : ∀ i op, e.operationVector.slot i = some op →
      ∃ j, e'.operationVector.slot j = some op) (he : Answering e) : Answering e' := by
  rcases he with hc | hf | ha | ⟨i, op, hi, hop⟩
  · exact .inl (h.current.trans hc)
  · exact .inr (.inl (h.finished hf))
  · exact .inr (.inr (.inl (hs.trans ha)))
  · obtain ⟨j, hj⟩ := hslot i op hi
    exact .inr (.inr (.inr ⟨j, op, hj, hop⟩))

theorem visit {i : ℕ} {b : Bool} (h : Answering e) (hal : Alive e) (hv : visit i e = .ok (e', b)) :
    Answering e' := by
  rcases visit_cases hv with rfl | ⟨op, o, e₁, hi, -, hn, ha, hcase⟩
  · exact h
  obtain ⟨hcar, hnot⟩ := next_told hn
  have hlt : i < e₁.operationVector.length := by
    rw [ha.operationVector]
    exact Slots.lt_length_of_slot hi
  have hnext : Answering (e₁.setSlot i o) := by
    rcases h with hc | hf | hab | ⟨j, op', hj, hop⟩
    · exact .inl (hcar.current.trans hc)
    · exact .inr (.inl (hcar.finished hf))
    · rw [hal.slot_of_aborting hab] at hi
      cases hi
    · by_cases hji : j = i
      · subst hji
        obtain rfl := Option.some.inj (hi.symm.trans hj)
        rcases hnot hop with hf | hab | ⟨y, rfl, hy⟩
        · exact .inr (.inl hf)
        · exact .inr (.inr (.inl hab))
        · refine .inr (.inr (.inr ⟨j, y, ?_, hy⟩))
          rw [setSlot, Slots.slot_setSlot _ _ _ _ hlt, if_pos rfl]
      · refine .inr (.inr (.inr ⟨j, op', ?_, hop⟩))
        rw [setSlot, Slots.slot_setSlot _ _ _ _ hlt, if_neg hji, ha.operationVector]
        exact hj
  rcases hcase with ⟨rfl, rfl⟩ | ⟨y, rfl, rfl⟩
  · exact hnext
  · obtain ⟨hc, hs⟩ := call_told y (e₁.setSlot i (some y))
    exact hnext.carry hc hs fun j op' hj => ⟨j, (call_grows y _).slot hj⟩

omit [Services S] in
theorem complete {op : Op} {c : HandlerCall K} {r : Reply V op} (h : Answering e)
    (hc : Completed op c r e e') : Answering e' := by
  refine h.carry ⟨?_, fun hf => ?_⟩ hc.status fun i x hi => ⟨i, ?_⟩
  · exact (congrArg ExecutionState.currentRequest hc.data :)
  · exact (congrArg ExecutionState.requestFinished hc.data :).trans hf
  · rwa [hc.operationVector]

theorem abort (e : TransactionExecution K V S) : Answering e.abort :=
  .inr (.inr (.inr ⟨0, .updateTxnStatusToAbort, rfl, rfl⟩))

theorem tidied (h : Answering e) : Answering e.tidied := by
  unfold TransactionExecution.tidied TransactionExecution.tidy
  split
  · exact h
  · split
    · exact abort _
    · exact carry (e := e) ⟨rfl, id⟩ rfl (fun i x hi => ⟨i, (Slots.slot_trim _ i).trans hi⟩) h

theorem start (op : Op) (hop : op.notifies = true) (e : TransactionExecution K V S) :
    Answering (start op e) := by
  refine .inr (.inr (.inr ⟨e.operationVector.length, op, ?_, hop⟩))
  apply (call_grows op (e.push op)).slot
  rw [push, Slots.slot_pushBack, if_pos rfl]

theorem dispatch (r : OperationRequest K) (e : TransactionExecution K V S) :
    Answering (e.dispatch r) := by
  have hwrite : ∀ z : TransactionExecution K V S, Answering (z.invoke .readOutside) := by
    intro z
    refine .inr (.inr (.inr ⟨z.operationVector.length, .readOutside, ?_, rfl⟩))
    apply (callLeaf_grows .readOutside (z.push .readOutside)).slot
    rw [push, Slots.slot_pushBack, if_pos rfl]
  cases r with
  | insert key record | upsert key record => exact hwrite _
  | update key record =>
    refine .inr (.inl ?_)
    simp only [TransactionExecution.dispatch, TransactionExecution.start, call, callLeaf,
      updateCallImpl]
    repeat' split
    all_goals rfl
  | delete key =>
    refine .inr (.inl ?_)
    simp only [TransactionExecution.dispatch, TransactionExecution.start, call, callLeaf,
      deleteCallImpl]
    repeat' split
    all_goals rfl
  | readDataStore key record needToRead =>
    cases needToRead with
    | true => exact start .readDataStore rfl _
    | false => exact .inr (.inl rfl)
  | «begin» => exact start .initTxn rfl _
  | read key record | readOutside key record => exact start .readOutside rfl _
  | commit => exact start .upload rfl _
  | abort => exact abort _

theorem notified (h : Answering e) (hal : Alive e) (hv : e.tidied.operationVector = [])
    (hc : e.currentRequest ≠ none) : e.requestFinished = true := by
  have hst : e.status ≠ .aborting := by
    intro hs
    have hnil : e.operationVector = [] := by
      unfold TransactionExecution.tidied at hv
      split at hv
      · assumption
      · rw [tidy, if_pos hs] at hv
        cases hv
    obtain ⟨x, gaveUp, hp⟩ := hal.failing hs
    exact hp.facts.2.2 hnil
  rcases h with hc' | hf | hs | ⟨i, op, hi, -⟩
  · exact absurd hc' hc
  · exact hf
  · exact absurd hs hst
  · exfalso
    have hslot : e.tidied.operationVector.slot i = some op := by
      unfold TransactionExecution.tidied
      split
      · exact hi
      · rw [tidy, if_neg hst]
        exact (Slots.slot_trim _ i).trans hi
    rw [hv] at hslot
    simp at hslot

end Answering

end TransactionExecution

inductive ExecutorKind
  | runtime
  | allAtOnce (datastoreDriver : Bool)
  deriving DecidableEq

namespace ExecutorKind

/-- Whether the `switch` calls a function of the execution for the request. -/
def serves : ExecutorKind → OperationRequest K → Bool
  | .runtime, .readDataStore .. => false
  | .allAtOnce false, .readDataStore .. => false
  | _, _ => true

variable [DecidableEq K] [Services S]

def handle : ExecutorKind → Handling K V S
  | .runtime => RuntimeTransactionExecutor.handle
  | .allAtOnce datastoreDriver => AllAtOnceTransactionExecutor.handle datastoreDriver

theorem handle_of_serves {kind : ExecutorKind} {r : OperationRequest K}
    (h : kind.serves r = true) (e : TransactionExecution K V S) : kind.handle r e = e.dispatch r := by
  cases kind with
  | runtime => cases r <;> first | rfl | cases h
  | allAtOnce datastoreDriver =>
    cases datastoreDriver <;> cases r <;> first | rfl | cases h

theorem handle_of_not_serves {kind : ExecutorKind} {r : OperationRequest K}
    (h : kind.serves r = false) (e : TransactionExecution K V S) :
    ∃ result, kind.handle r e =
      { e with currentRequest := some r, requestFinished := false, result := result } := by
  cases kind with
  | runtime =>
    cases r <;> first | exact ⟨e.result, rfl⟩ | cases h
  | allAtOnce datastoreDriver =>
    cases datastoreDriver with
    | true => cases r <;> cases h
    | false => cases r <;> first | exact ⟨_, rfl⟩ | cases h

theorem dispatches (kind : ExecutorKind) : Dispatches (kind.handle : Handling K V S) := by
  cases kind with
  | runtime => exact RuntimeTransactionExecutor.dispatches
  | allAtOnce datastoreDriver => exact AllAtOnceTransactionExecutor.dispatches datastoreDriver

end ExecutorKind

namespace TransactionExecutor

variable [DecidableEq K] [Services S] {kind : ExecutorKind} {x x' : TransactionExecutor K V S}
  {t : TransactionTask K V S}

/-- Where `MoveForward` would return true, the current request was notified. -/
def Notified (x : TransactionExecutor K V S) : Prop :=
  ∀ i t r, x.task i = some t → t.inUse = true → t.execution.tidied.operationVector = [] →
    t.execution.currentRequest = some r → t.execution.requestFinished = true

/-- If the action starts a request, the executor serves requests of this type. -/
def Serves (kind : ExecutorKind) (x : TransactionExecutor K V S) : TaskAction K V S → Prop
  | .slot (.serve i) => ∀ t r, x.task i = some t → t.execution.tidied.operationVector = [] →
      t.execution.isTransactionFinished = false →
      t.request.operationRequestQueue[t.request.current]? = some r → kind.serves r.operation = true
  | _ => True

structure Answered (x : TransactionExecutor K V S) : Prop where
  ok : ∀ t ∈ x.activeTxn, TaskOk t
  answering : ∀ t ∈ x.activeTxn, t.inUse = true → Answering t.execution

theorem Answered.task (h : Answered x) {i : ℕ} (hi : x.task i = some t) :
    TaskOk t ∧ (t.inUse = true → Answering t.execution) := by
  obtain ⟨u, hu, rfl⟩ := task_eq_some.mp hi
  have hmem := List.mem_of_getElem? hu
  exact ⟨(h.ok u hmem).share _ _, h.answering u hmem⟩

theorem Answered.notified (h : Answered x) : Notified x := by
  intro i t r hi hu hv hc
  obtain ⟨hok, ha⟩ := h.task hi
  exact (ha hu).notified (hok.alive hu) hv (by rw [hc]; simp)

theorem init_answered (n : ℕ) (services : S) (memory : Addr → V) (key : SetKey K) :
    Answered (init n services memory key) := by
  have hmem : ∀ t ∈ (init n services memory key).activeTxn, t = .init services memory key :=
    fun t ht => List.eq_of_mem_replicate ht
  refine ⟨fun t ht => ?_, fun t ht hu => ?_⟩
  · rw [hmem t ht]
    exact .init services memory key
  · rw [hmem t ht] at hu
    cases hu

theorem serve_answering {i : ℕ} (ha : Answering t.execution)
    (hs : Serves kind x (.slot (.serve i))) (hi : x.task i = some t) :
    Answering (t.serve kind.handle).execution := by
  by_cases hidle : t.execution.tidied.operationVector = [] ∧
      t.execution.isTransactionFinished = false
  · cases hr : t.request.operationRequestQueue[t.request.current]? with
    | some r =>
      rw [TransactionTask.serve_request hidle.1 hidle.2 hr,
        ExecutorKind.handle_of_serves (hs t r hi hidle.1 hidle.2 hr)]
      exact .dispatch _ _
    | none =>
      unfold TransactionTask.serve
      simp only
      split
      · simp only [TransactionTask.next, TransactionRequest.currentRequest, hr, Option.map_none]
        exact ha.tidied
      · exact ha.tidied
  · unfold TransactionTask.serve
    simp only
    rw [← tidied_isTransactionFinished] at hidle
    rw [if_neg hidle]
    exact ha.tidied

theorem Answered.act {a : TaskAction K V S} (h : Answered x) (hs : Serves kind x a)
    (hact : act kind.handle x a = some x') : Answered x' := by
  obtain ⟨s, rfl, rfl⟩ | ⟨i, t, t', hi, hstep, hnew, -⟩ := act_task hact
  · exact ⟨h.ok, h.answering⟩
  obtain ⟨hok, ha⟩ := h.task hi
  have hok' := hstep.ok kind.dispatches hok
  have ha' : t'.inUse = true → Answering t'.execution := by
    cases hstep with
    | launch r hu => exact fun _ => .inl rfl
    | push r => exact ha
    | answer op reply c e he hc => exact fun hu => (ha hu).complete hc
    | visit j e b hv => exact fun hu => (ha hu).visit (hok.alive hu) hv
    | serve hu hf => exact fun _ => serve_answering (ha hu) hs hi
    | finish hu hf => exact fun hu' => by cases hu'
  have hmem : ∀ u ∈ x'.activeTxn, u ∈ x.activeTxn ∨ u = t' := by
    intro u hu
    rw [hnew] at hu
    exact List.mem_or_eq_of_mem_set hu
  refine ⟨fun u hu => ?_, fun u hu huse => ?_⟩
  · rcases hmem u hu with hu | rfl
    · exact h.ok u hu
    · exact hok'
  · rcases hmem u hu with hu | rfl
    · exact h.answering u hu huse
    · exact ha' huse

theorem Notified.serves {a : TaskAction K V S} (hact : act kind.handle x a = some x')
    (h : Notified x') : Serves kind x a := by
  cases a with
  | launch i r | push i r => trivial
  | slot a =>
    cases a with
    | answer i op reply | visit i j | services s => trivial
    | serve i =>
      intro t r hi hv hf hr
      by_contra hno
      have hno : kind.serves r.operation = false := by simpa using hno
      obtain ⟨result, hhandle⟩ := ExecutorKind.handle_of_not_serves hno t.execution.tidied
      have hserve : (t.serve kind.handle).execution = kind.handle r.operation t.execution.tidied :=
        TransactionTask.serve_request hv hf hr
      rw [hhandle] at hserve
      obtain ⟨u, hu, -⟩ := task_eq_some.mp hi
      have hlt := (List.getElem?_eq_some_iff.mp hu).1
      obtain ⟨w, hw, hact⟩ := Option.bind_eq_some_iff.mp hact
      obtain rfl := Option.some.inj (hi.symm.trans hw)
      split at hact
      · next huse =>
        obtain rfl := Option.some.inj hact
        have hunf : (t.serve kind.handle).execution.isTransactionFinished = false := by
          rw [hserve]
          exact tidied_isTransactionFinished.trans hf
        rw [settle, if_neg (by simp [hunf])] at h
        have huse' : (t.serve kind.handle).inUse = true := by
          unfold TransactionTask.serve
          simp only
          split
          · rcases TransactionTask.next_cases kind.handle { t with execution := t.execution.tidied }
              with hn | ⟨q, -, hn⟩ <;> rw [hn] <;> exact huse
          · exact huse
        have hidle : (t.serve kind.handle).execution.operationVector = [] := by
          rw [hserve]
          exact hv
        have hfin := h i _ r.operation (task_setTask hlt _) huse'
          (by rw [tidied_of_nil hidle, hidle]) (by rw [hserve])
        rw [hserve] at hfin
        cases hfin
      · cases hact

/-- Every request that has run to its end was notified, in each state of a run, if and only if no
request of a type that the executor does not serve is started. -/
theorem requests_notified {n : ℕ} {services : S} {memory : Addr → V} {key : SetKey K}
    {as : List (TaskAction K V S)}
    (hr : run (act kind.handle) (init n services memory key) as = some x) :
    (∀ pre post y, as = pre ++ post →
      run (act kind.handle) (init n services memory key) pre = some y → Notified y) ↔
    Along (act kind.handle) (Serves kind) (init n services memory key) as :=
  (along_iff_forall (fun _ => Answered.notified) (fun _ _ _ hs h ha => h.act hs ha)
    (fun _ _ _ _ ha hn => hn.serves ha) (init_answered n services memory key) hr).symm

def sampleSlots : TransactionExecutor ℕ ℕ LocalServices :=
  init 1 ⟨.ofBase 0 100, .ofClock fun _ => 5⟩ (fun _ => 0) ⟨"t", 0⟩

def sampleRequest (r : OperationRequest ℕ) : List (TaskAction ℕ ℕ LocalServices) :=
  [.launch 0 ⟨1, .begin⟩, .push 0 ⟨1, r⟩, .push 0 ⟨1, .commit⟩, .slot (.serve 0),
    .slot (.answer 0 .initTxn ⟨false, (), []⟩), .slot (.visit 0 0), .slot (.serve 0)]

def sampleRead : OperationRequest ℕ := .readDataStore ⟨"t", 1⟩ none true

def sampleTold (x : TransactionExecutor ℕ ℕ LocalServices) :
    Option (Bool × Option (OperationRequest ℕ)) :=
  (x.task 0).map fun t => (t.inUse && t.execution.tidied.operationVector.isEmpty &&
    !t.execution.requestFinished, t.execution.currentRequest)

/-- The runtime executor, and the other one without a driver, start a read of the data store and
take the next request although it was not notified. -/
theorem readDataStore_silent :
    (∃ x, run (act (ExecutorKind.handle .runtime)) sampleSlots (sampleRequest sampleRead) = some x ∧
      ¬ Notified x) ∧
    ∃ x, run (act (ExecutorKind.handle (.allAtOnce false))) sampleSlots
      (sampleRequest sampleRead) = some x ∧ ¬ Notified x := by
  have hsilent : ∀ kind, (run (act (ExecutorKind.handle kind)) sampleSlots
      (sampleRequest sampleRead)).map sampleTold = some (some (true, some sampleRead)) →
      ∃ x, run (act (ExecutorKind.handle kind)) sampleSlots (sampleRequest sampleRead) = some x ∧
        ¬ Notified x := by
    intro kind h
    obtain ⟨x, hx, hv⟩ := Option.map_eq_some_iff.mp h
    obtain ⟨t, ht, hv⟩ := Option.map_eq_some_iff.mp hv
    obtain ⟨hv, hc⟩ := Prod.mk.inj hv
    simp only [Bool.and_eq_true, List.isEmpty_iff, Bool.not_eq_true'] at hv
    refine ⟨x, hx, fun hn => ?_⟩
    have hfin := hn 0 t sampleRead ht hv.1.1 hv.1.2 hc
    rw [hv.2] at hfin
    cases hfin
  exact ⟨hsilent .runtime (by decide +kernel), hsilent (.allAtOnce false) (by decide +kernel)⟩

theorem requests_notified_sample : ∃ x, run (act (ExecutorKind.handle (.allAtOnce true))) sampleSlots
    (sampleRequest sampleRead) = some x ∧
      ((∀ pre post y, sampleRequest sampleRead = pre ++ post →
        run (act (ExecutorKind.handle (.allAtOnce true))) sampleSlots pre = some y → Notified y) ↔
      Along (act (ExecutorKind.handle (.allAtOnce true))) (Serves (.allAtOnce true)) sampleSlots
        (sampleRequest sampleRead)) := by
  have h : (run (act (ExecutorKind.handle (.allAtOnce true))) sampleSlots
      (sampleRequest sampleRead)).map sampleTold =
        some (some (false, some sampleRead)) := by decide +kernel
  obtain ⟨x, hx, -⟩ := Option.map_eq_some_iff.mp h
  exact ⟨x, hx, requests_notified hx⟩

end TransactionExecutor

end Fugue
