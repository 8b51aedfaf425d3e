import Fugue.ExecutorSteps
import Fugue.WriteSet

namespace Fugue

namespace LocalTimeProvider

variable {p : LocalTimeProvider} {c : ℤ}

/-- The provider will not return a time before `c`. -/
structure Past (c : ℤ) (p : LocalTimeProvider) : Prop where
  le : c ≤ p.timeValue
  count : 0 ≤ p.count

theorem Past.getTime (h : Past c p) : c ≤ p.getTime.1 ∧ Past c p.getTime.2 := by
  have hle := h.le
  have hcount := h.count
  unfold LocalTimeProvider.getTime
  split
  · have hmax := Int.le_max_left p.timeValue (p.clock 0)
    refine ⟨?_, ?_, ?_⟩ <;> dsimp only <;> omega
  · refine ⟨?_, ?_, ?_⟩ <;> dsimp only <;> omega

theorem Past.setTime (h : Past c p) (time : ℤ) : Past c (p.setTime time) := by
  have hle := h.le
  have hcount := h.count
  have hmax := Int.le_max_left (p.timeValue + p.count) time
  constructor
  · unfold LocalTimeProvider.setTime
    dsimp only
    omega
  · exact Int.le_refl 0

theorem past_setTime (p : LocalTimeProvider) (time : ℤ) : Past time (p.setTime time) :=
  ⟨Int.le_max_right _ _, Int.le_refl 0⟩

theorem ofClock_count (clock : ℕ → ℤ) : 0 ≤ (ofClock clock).count := Int.le_refl 0

end LocalTimeProvider

open LocalTimeProvider

section

variable {K V : Type}

structure Ticks (x y : ExecutionState K V LocalServices) : Prop where
  past : ∀ c, Past c x.services.provider → Past c y.services.provider
  count : 0 ≤ x.services.provider.count → 0 ≤ y.services.provider.count
  fixed : y.commitTimestamp = x.commitTimestamp ∨ y.commitTimestamp = -1 ∨
    Past y.commitTimestamp y.services.provider

namespace Ticks

variable {x y z : ExecutionState K V LocalServices}

theorem still (hs : y.services = x.services) (hc : y.commitTimestamp = x.commitTimestamp) :
    Ticks x y where
  past c h := by
    rw [hs]
    exact h
  count h := by
    rw [hs]
    exact h
  fixed := .inl hc

theorem trans (h : Ticks x y) (h' : Ticks y z) : Ticks x z where
  past c hp := h'.past c (h.past c hp)
  count hc := h'.count (h.count hc)
  fixed := by
    rcases h'.fixed with hz | hz
    · rw [hz]
      rcases h.fixed with hy | hy | hy
      · exact .inl hy
      · exact .inr (.inl hy)
      · exact .inr (.inr (h'.past _ hy))
    · exact .inr hz

theorem getTime (h : y.services.provider = x.services.provider.getTime.2)
    (hc : y.commitTimestamp = x.commitTimestamp ∨ y.commitTimestamp = -1) : Ticks x y where
  past c hp := by
    rw [h]
    exact hp.getTime.2
  count h0 := by
    have hp : Past x.services.provider.timeValue x.services.provider := ⟨Int.le_refl _, h0⟩
    rw [h]
    exact hp.getTime.2.count
  fixed := hc.imp_right .inl

theorem setTime {t : ℤ} (h : y.services.provider = x.services.provider.setTime t)
    (hc : y.commitTimestamp = t) : Ticks x y where
  past c hp := by
    rw [h]
    exact hp.setTime t
  count _ := by
    rw [h]
    exact (past_setTime _ t).count
  fixed := by
    rw [h, hc]
    exact .inr (.inr (past_setTime _ t))

end Ticks

namespace TransactionExecution

variable [DecidableEq K] {e e' e₁ : TransactionExecution K V LocalServices}

theorem next_ticks {op : Op} {o : Option Op} (h : next op e = .ok (o, e₁)) :
    Ticks e.toExecutionState e₁.toExecutionState := by
  have hrec : ∀ (z : TransactionExecution K V LocalServices) a,
      (z.setResultRecord a).services = z.services ∧
        (z.setResultRecord a).commitTimestamp = z.commitTimestamp := by
    intro z a
    unfold setResultRecord
    split
    · exact ⟨rfl, rfl⟩
    · split <;> exact ⟨rfl, rfl⟩
    · exact ⟨rfl, rfl⟩
  unfold next at h
  cases op with
  | readOutside =>
    simp only [nextImpl] at h
    split at h
    · cases h
      exact .still rfl rfl
    · cases hr : (e.setFlags .readOutside ⟨true, true⟩).internalRead with
      | error m =>
        rw [hr] at h
        cases h
      | ok z =>
        rw [hr] at h
        cases h
        unfold internalRead at hr
        split at hr
        · cases hr
        · cases hr
          split
          · exact .still rfl rfl
          · exact .still (hrec _ _).1 (hrec _ _).2
        · cases hr
          exact .still rfl rfl
  | readDataStore =>
    simp only [nextImpl, readDataStoreNext, noNext] at h
    cases h
    split
    · exact .still rfl rfl
    · split
      · exact .still rfl rfl
      · exact .still (hrec _ _).1 (hrec _ _).2
  | insert =>
    simp only [nextImpl, insertNext, noNext] at h
    cases h
    repeat' split
    all_goals exact .still rfl rfl
  | upsert =>
    simp only [nextImpl, upsertNext, noNext] at h
    cases h
    split <;> exact .still rfl rfl
  | postProcessingCommitEntryAfterCommit i =>
    simp only [nextImpl, clearReleaseOfWrite] at h
    split at h <;> cases h
    split <;> exact .still rfl rfl
  | postProcessingDeleteEntryAfterAbort i =>
    simp only [nextImpl, deleteEntryNext] at h
    split at h
    · cases h
    · split at h <;> cases h
      · split <;> exact .still rfl rfl
      · exact .still rfl rfl
  | initTxn =>
    simp only [nextImpl] at h
    split at h <;> cases h
    · exact .getTime rfl (.inl rfl)
    · exact .still rfl rfl
  | setCommitTs =>
    simp only [nextImpl] at h
    split at h <;> cases h
    · exact .still rfl rfl
    · exact .setTime rfl rfl
  | _ =>
    simp only [nextImpl, uploadVersionEntryNext, updateReadEntryMaxCommitTsNext,
      pushConflictNext] at h
    repeat' split at h
    all_goals cases h
    all_goals exact .still rfl rfl

theorem call_ticks (op : Op) (e : TransactionExecution K V LocalServices) :
    Ticks e.toExecutionState (call op e).toExecutionState := by
  rw [call_data]
  cases op with
  | setCommitTs =>
    have hz : Ticks e.toExecutionState e.resetTime.toExecutionState := .getTime rfl (.inl rfl)
    exact hz.trans (.setTime rfl rfl)
  | update =>
    simp only [callData, updateCallImpl]
    repeat' split
    all_goals exact .still rfl rfl
  | delete =>
    simp only [callData, deleteCallImpl]
    repeat' split
    all_goals exact .still rfl rfl
  | writeToLog =>
    simp only [callData, writeToLogCallImpl]
    split <;> exact .still rfl rfl
  | _ => exact .still rfl rfl

theorem dispatch_ticks (q : OperationRequest K) (e : TransactionExecution K V LocalServices) :
    Ticks e.toExecutionState (e.dispatch q).toExecutionState := by
  have hs : ∀ op (z : TransactionExecution K V LocalServices),
      Ticks e.toExecutionState z.toExecutionState →
        Ticks e.toExecutionState (start op z).toExecutionState :=
    fun op z hz => hz.trans (call_ticks op (z.push op))
  cases q with
  | readDataStore key record needToRead =>
    simp only [dispatch]
    split
    · exact hs _ _ (.still rfl rfl)
    · exact .still rfl rfl
  | abort => exact .still rfl rfl
  | _ =>
    simp only [dispatch]
    exact hs _ _ (.still rfl rfl)

omit [DecidableEq K] in
theorem reset_ticks (e : TransactionExecution K V LocalServices) :
    Ticks e.toExecutionState e.reset.toExecutionState := .getTime rfl (.inr rfl)

theorem tidied_ticks (e : TransactionExecution K V LocalServices) :
    Ticks e.toExecutionState e.tidied.toExecutionState := by
  unfold tidied tidy
  split
  · exact .still rfl rfl
  · split <;> exact .still rfl rfl

theorem visit_ticks {j : ℕ} {b : Bool} (h : visit j e = .ok (e', b)) :
    Ticks e.toExecutionState e'.toExecutionState := by
  rcases visit_cases h with rfl | ⟨op, o, e₁, -, -, hn, -, ⟨-, rfl⟩ | ⟨y, -, rfl⟩⟩
  · exact .still rfl rfl
  · have ht := next_ticks hn
    exact ht
  · exact (next_ticks hn).trans (call_ticks y (e₁.setSlot j (some y)))

end TransactionExecution

end

namespace TransactionExecution

section

variable {K V S : Type} [DecidableEq K] [Services S] {e e' : TransactionExecution K V S}

theorem call_events (y : Op) (e : TransactionExecution K V S) :
    ∀ ev ∈ (call y e).log, ev ∈ e.log ∨ ev.op.rank = y.rank := by
  have hF : ∀ F : Family K V S, (∀ i, (F.child i).rank = F.parent.rank) →
      ∀ ev ∈ (call F.parent e).log, ev ∈ e.log ∨ ev.op.rank = F.parent.rank := by
    intro F hrank ev hev
    rw [F.call_parent, (invokeAll_invoked F _ _).log] at hev
    rcases List.mem_append.mp hev with hev | hev
    · exact .inl hev
    · obtain ⟨q, hq, rfl⟩ := List.mem_map.mp hev
      obtain ⟨i, index, -, hqi, -⟩ := mem_calls.mp hq
      right
      change q.1.rank = _
      rw [hqi, hrank]
  have hi : ∀ (z : TransactionExecution K V S) x, z.log = e.log → x.rank = y.rank →
      ∀ ev ∈ (z.issueCall x).log, ev ∈ e.log ∨ ev.op.rank = y.rank := by
    intro z x hz hx ev hev
    rw [issueCall_eq, hz] at hev
    rcases List.mem_append.mp hev with hev | hev
    · exact .inl hev
    · obtain ⟨q, hq, rfl⟩ := List.mem_map.mp hev
      obtain ⟨c, -, rfl⟩ := Option.map_eq_some_iff.mp (Option.mem_toList.mp hq)
      exact .inr hx
  have hq : ∀ z : TransactionExecution K V S, z.log = e.log →
      ∀ ev ∈ z.log, ev ∈ e.log ∨ ev.op.rank = y.rank := fun z hz ev hev => .inl (hz ▸ hev)
  have hl := hi (e.setMoveToNext y false) y rfl rfl
  cases y with
  | upload => exact hF uploadFamily fun _ => rfl
  | validate => exact hF validateFamily fun _ => rfl
  | postProcessingAfterCommit => exact hF commitFamily fun _ => rfl
  | postProcessingAfterAbort => exact hF deleteFamily fun _ => rfl
  | releaseReadCounter => exact hF releaseFamily fun _ => rfl
  | insert | upsert => exact hi _ .readOutside rfl rfl
  | setCommitTs => exact hi _ .setCommitTs rfl rfl
  | update =>
    apply hq
    simp only [call, callLeaf, updateCallImpl]
    repeat' split
    all_goals rfl
  | delete =>
    apply hq
    simp only [call, callLeaf, deleteCallImpl]
    repeat' split
    all_goals rfl
  | writeToLog =>
    simp only [call, callLeaf, writeToLogCallImpl, enableLog_eq, Bool.not_false, Bool.or_true,
      if_true]
    exact hq _ rfl
  | _ => exact hl

theorem dispatch_events (q : OperationRequest K) (e : TransactionExecution K V S) :
    ∀ ev ∈ (e.dispatch q).log, ev ∈ e.log ∨ ev.op.rank ≠ Op.rank .setCommitTs := by
  have hs : ∀ op (z : TransactionExecution K V S), z.log = e.log → op.rank ≠ Op.rank .setCommitTs →
      ∀ ev ∈ (start op z).log, ev ∈ e.log ∨ ev.op.rank ≠ Op.rank .setCommitTs := by
    intro op z hz hop ev hev
    rcases call_events op (z.push op) ev hev with hev | hev
    · exact .inl (hz ▸ hev)
    · exact .inr (hev ▸ hop)
  cases q with
  | readDataStore key record needToRead =>
    simp only [dispatch]
    split
    · exact hs _ _ rfl (by simp [Op.rank])
    · exact fun ev hev => .inl hev
  | abort =>
    intro ev hev
    rcases List.mem_append.mp hev with hev | hev
    · exact .inl hev
    · obtain rfl := List.mem_singleton.mp hev
      exact .inr (by simp [Event.op, Op.rank])
  | _ =>
    simp only [dispatch]
    exact hs _ _ rfl (by simp [Op.rank])

theorem tidied_events (e : TransactionExecution K V S) :
    ∀ ev ∈ e.tidied.log, ev ∈ e.log ∨ ev.op.rank ≠ Op.rank .setCommitTs := by
  intro ev hev
  unfold tidied tidy at hev
  split at hev
  · exact .inl hev
  · split at hev
    · rcases List.mem_append.mp hev with hev | hev
      · exact .inl hev
      · obtain rfl := List.mem_singleton.mp hev
        exact .inr (by simp [Event.op, Op.rank])
    · exact .inl hev

theorem next_setCommitTs {op : Op} {e₁ : TransactionExecution K V S}
    (h : next op e = .ok (some .setCommitTs, e₁)) : e₁.toExecutionState = e.toExecutionState := by
  unfold next at h
  cases op with
  | upload =>
    simp only [nextImpl] at h
    split at h <;> cases h
    rfl
  | readOutside =>
    simp only [nextImpl] at h
    split at h
    · cases h
    · cases hr : (e.setFlags .readOutside ⟨true, true⟩).internalRead <;> rw [hr] at h <;> cases h
  | _ =>
    simp only [nextImpl, uploadVersionEntryNext, updateReadEntryMaxCommitTsNext, pushConflictNext,
      deleteEntryNext, readDataStoreNext, insertNext, upsertNext, noNext, prepareAbort,
      abortNext] at h
    repeat' split at h
    all_goals cases h

theorem visit_setCommitTs {j : ℕ} {b : Bool} (h : visit j e = .ok (e', b)) {c : HandlerCall K}
    (hc : Event.issued .setCommitTs c ∈ e'.log) (hold : Event.issued .setCommitTs c ∉ e.log) :
    ∃ z : TransactionExecution K V S, z.toExecutionState = e.toExecutionState ∧
      e'.log = e.log ++ [.issued .setCommitTs c] ∧
      c = .setCommitTimestamp e.txnId z.resetTime.proposedCommitTs := by
  rcases visit_cases h with rfl | ⟨op, o, e₁, -, -, hn, ha, ⟨-, rfl⟩ | ⟨y, rfl, rfl⟩⟩
  · exact absurd hc hold
  · exact absurd (ha.log ▸ hc) hold
  · have hy : y = .setCommitTs := by
      rcases call_events y (e₁.setSlot j (some y)) _ hc with hev | hev
      · exact absurd (ha.log ▸ hev) hold
      · change Op.rank .setCommitTs = y.rank at hev
        cases y <;> first | rfl | cases hev
    subst hy
    have hdata := next_setCommitTs hn
    let z := (e₁.setSlot j (some .setCommitTs)).setMoveToNext .setCommitTs false
    have hcall : (call .setCommitTs (e₁.setSlot j (some .setCommitTs))).log =
        e.log ++ [.issued .setCommitTs
          (.setCommitTimestamp e.txnId z.resetTime.proposedCommitTs)] := by
      rw [← ha.log, ← hdata]
      rfl
    rw [hcall] at hc
    obtain hc := (List.mem_append.mp hc).resolve_left hold
    cases List.mem_singleton.mp hc
    exact ⟨z, hdata, hcall, rfl⟩

end

section

variable {K V : Type} [DecidableEq K] {e e' : TransactionExecution K V LocalServices}

theorem visit_proposes {j : ℕ} {b : Bool} (h : visit j e = .ok (e', b)) {c : HandlerCall K}
    (hc : Event.issued .setCommitTs c ∈ e'.log) : Event.issued .setCommitTs c ∈ e.log ∨
      ∃ id ts, c = .setCommitTimestamp id ts ∧ ∀ d, Past d e.services.provider → d ≤ ts := by
  by_cases hold : Event.issued .setCommitTs c ∈ e.log
  · exact .inl hold
  · obtain ⟨z, hz, -, rfl⟩ := visit_setCommitTs h hc hold
    refine .inr ⟨_, _, rfl, fun d hd => ?_⟩
    have hp : Past d z.services.provider := by
      rw [hz]
      exact hd
    have htime : d ≤ z.resetTime.commitTimestampLocal := hp.getTime.1
    have hmax := (proposedCommitTs_bounds (e := z.resetTime)).1
    have hle := Int.le_max_right (z.resetTime.maxCommitTimestampOfWriters + 1)
      z.resetTime.commitTimestampLocal
    exact Int.le_trans htime (Int.le_trans hle hmax)

end

end TransactionExecution

open TransactionExecution

section

variable {K V S : Type} [DecidableEq K] [Services S] {handle : Handling K V S}
  {e : TransactionExecution K V S}

theorem TransactionExecution.tidied_subset : e.log ⊆ e.tidied.log := by
  rcases tidied_step (e := e) with ht | ht
  · rw [ht]
    exact fun _ h => h
  · exact step_subset ht

theorem Dispatches.subset (h : Dispatches handle) (r : OperationRequest K) :
    e.log ⊆ (handle r e).log := by
  rcases h r e with heq | ⟨k, record, b, result, rfl, heq⟩ <;> rw [heq]
  · obtain ⟨l, hl⟩ := dispatch_log r e
    rw [hl]
    exact List.subset_append_left _ _
  · exact fun _ h => h

theorem Dispatches.events (h : Dispatches handle) (r : OperationRequest K) :
    ∀ ev ∈ (handle r e).log, ev ∈ e.log ∨ ev.op.rank ≠ Op.rank .setCommitTs := by
  rcases h r e with heq | ⟨k, record, b, result, rfl, heq⟩ <;> rw [heq]
  · exact dispatch_events r e
  · exact fun ev hev => .inl hev

theorem TransactionTask.serve_log (h : Dispatches handle) (t : TransactionTask K V S) :
    t.execution.log ⊆ (t.serve handle).execution.log ∧
      ∀ ev ∈ (t.serve handle).execution.log,
        ev ∈ t.execution.log ∨ ev.op.rank ≠ Op.rank .setCommitTs := by
  unfold serve
  simp only
  split
  · rcases next_cases handle { t with execution := t.execution.tidied } with
      hn | ⟨r, -, hn⟩ <;> rw [hn]
    · exact ⟨tidied_subset, tidied_events _⟩
    · refine ⟨fun ev hev => h.subset r.operation (tidied_subset hev), fun ev hev => ?_⟩
      rcases h.events r.operation ev hev with hev | hev
      · exact tidied_events _ ev hev
      · exact .inr hev
  · exact ⟨tidied_subset, tidied_events _⟩

end

section

variable {K V : Type} [DecidableEq K] {handle : Handling K V LocalServices}

theorem Dispatches.ticks (h : Dispatches handle) (r : OperationRequest K)
    (e : TransactionExecution K V LocalServices) :
    Ticks e.toExecutionState (handle r e).toExecutionState := by
  rcases h r e with heq | ⟨k, record, b, result, rfl, heq⟩ <;> rw [heq]
  · exact dispatch_ticks r e
  · exact .still rfl rfl

theorem TransactionTask.serve_ticks (h : Dispatches handle)
    (t : TransactionTask K V LocalServices) :
    Ticks t.execution.toExecutionState (t.serve handle).execution.toExecutionState := by
  have ht := tidied_ticks t.execution
  unfold serve
  simp only
  split
  · rcases next_cases handle { t with execution := t.execution.tidied } with
      hn | ⟨r, -, hn⟩ <;> rw [hn]
    · exact ht
    · exact ht.trans (h.ticks r.operation _)
  · exact ht

end

namespace TransactionExecutor

variable {K V : Type} [DecidableEq K] {handle : Handling K V LocalServices}
  {x y : TransactionExecutor K V LocalServices}

/-- Nothing but the transactions of the executor uses its clock and its generator. -/
def Own : TaskAction K V LocalServices → Prop
  | .slot (.services _) => False
  | _ => True

structure Acted (x : TransactionExecutor K V LocalServices) (a : TaskAction K V LocalServices)
    (y : TransactionExecutor K V LocalServices) (i : ℕ)
    (t t' : TransactionTask K V LocalServices) : Prop where
  old : x.task i = some t
  new : y.activeTxn = x.activeTxn.set i t'
  services : y.services = t'.execution.services
  ok : TaskOk t'
  alive : Alive t'.execution
  ticks : Ticks t.execution.toExecutionState t'.execution.toExecutionState
  proposes : ∀ c, Event.issued .setCommitTs c ∈ t'.execution.log →
    Event.issued .setCommitTs c ∈ t.execution.log ∨ ∃ id ts, c = .setCommitTimestamp id ts ∧
      ∀ d, Past d x.services.provider → d ≤ ts
  keeps : (∀ r, a ≠ .launch i r) → t.execution.log ⊆ t'.execution.log

structure Timed (x : TransactionExecutor K V LocalServices) : Prop where
  ok : ∀ t ∈ x.activeTxn, TaskOk t
  alive : ∀ t ∈ x.activeTxn, Alive t.execution
  count : 0 ≤ x.services.provider.count
  fixed : ∀ t ∈ x.activeTxn, t.execution.commitTimestamp = -1 ∨
    Past t.execution.commitTimestamp x.services.provider

theorem Timed.task (h : Timed x) {i : ℕ} {t : TransactionTask K V LocalServices}
    (hi : x.task i = some t) : TaskOk t ∧ Alive t.execution ∧ t.execution.services = x.services ∧
      (t.execution.commitTimestamp = -1 ∨
        Past t.execution.commitTimestamp x.services.provider) := by
  obtain ⟨u, hu, rfl⟩ := task_eq_some.mp hi
  have hmem := List.mem_of_getElem? hu
  exact ⟨(h.ok u hmem).share _ _, (h.alive u hmem).share _ _, rfl, h.fixed u hmem⟩

theorem act_cases (hh : Dispatches handle) (hx : Timed x) {a : TaskAction K V LocalServices}
    (ha : Own a) (h : act handle x a = some y) : ∃ i t t', Acted x a y i t t' := by
  obtain ⟨s, rfl, -⟩ | ⟨i, t, t', hi, hstep, hnew, hsv⟩ := act_task h
  · exact ha.elim
  obtain ⟨hok, hal, hserv, -⟩ := hx.task hi
  have hok' := hstep.ok hh hok
  have hserve := TransactionTask.serve_log hh t
  have hprop : ∀ c, Event.issued .setCommitTs c ∈ (t.serve handle).execution.log →
      Event.issued .setCommitTs c ∈ t.execution.log ∨ ∃ id ts, c = .setCommitTimestamp id ts ∧
        ∀ d, Past d x.services.provider → d ≤ ts :=
    fun c hc => (hserve.2 _ hc).imp_right fun hr => absurd rfl hr
  refine ⟨i, t, t', ?_⟩
  cases hstep with
  | launch r hu =>
    obtain ⟨hv, hp⟩ := hok.released hu
    refine ⟨hi, hnew, hsv, hok', .reset hv hp, reset_ticks t.execution, fun c hc => ?_, fun hne => ?_⟩
    · cases hc
    · exact absurd rfl (hne r)
  | push r =>
    exact ⟨hi, hnew, hsv, hok', hal, .still rfl rfl, fun c hc => .inl hc, fun _ _ hev => hev⟩
  | answer op reply c e he hc =>
    refine ⟨hi, hnew, hsv, hok', hal.step (a := .complete op reply) he, ?_, fun c' hc' => ?_,
      fun _ => hc.log_subset⟩
    · exact .still (congrArg ExecutionState.services hc.data :) hc.commitTimestamp
    · rw [show (TransactionTask.execution { t with execution := e }).log = e.log from rfl,
        hc.log] at hc'
      rcases List.mem_append.mp hc' with hc' | hc'
      · exact .inl hc'
      · cases List.mem_singleton.mp hc'
  | visit j e b hv =>
    have hs : t.execution.step (.visit j) = some e := by
      rw [TransactionExecution.step, hv]
      rfl
    refine ⟨hi, hnew, hsv, hok', hal.step hs, visit_ticks hv, fun c hc => ?_, fun _ => step_subset hs⟩
    rw [← hserv]
    exact visit_proposes hv hc
  | serve hu hf =>
    exact ⟨hi, hnew, hsv, hok', (hok.serve hh hu).ok.alive (hok.serve hh hu).inUse,
      TransactionTask.serve_ticks hh t, hprop, fun _ => hserve.1⟩
  | finish hu hf =>
    exact ⟨hi, hnew, hsv, hok', (hok.serve hh hu).ok.alive (hok.serve hh hu).inUse,
      TransactionTask.serve_ticks hh t, hprop, fun _ => hserve.1⟩

namespace Acted

variable {a : TaskAction K V LocalServices} {i : ℕ} {t t' : TransactionTask K V LocalServices}

theorem task_self (h : Acted x a y i t t') :
    y.task i = some { t' with execution := t'.execution.share y.services y.memory } := by
  obtain ⟨u, hu, -⟩ := task_eq_some.mp h.old
  have hlt := (List.getElem?_eq_some_iff.mp hu).1
  refine task_eq_some.mpr ⟨t', ?_, rfl⟩
  rw [h.new, List.getElem?_set_self hlt]

theorem task_ne (h : Acted x a y i t t') {j : ℕ} (hj : j ≠ i)
    {u u' : TransactionTask K V LocalServices} (hu : x.task j = some u) (hu' : y.task j = some u') :
    u'.execution.log = u.execution.log := by
  obtain ⟨w, hw, rfl⟩ := task_eq_some.mp hu
  obtain ⟨w', hw', rfl⟩ := task_eq_some.mp hu'
  rw [h.new, List.getElem?_set_ne (Ne.symm hj), hw] at hw'
  obtain rfl := Option.some.inj hw'
  rfl

theorem past (h : Acted x a y i t t') {c : ℤ} (hc : Past c x.services.provider) :
    Past c y.services.provider := by
  obtain ⟨u, hu, rfl⟩ := task_eq_some.mp h.old
  rw [h.services]
  exact h.ticks.past c hc

theorem timed (h : Acted x a y i t t') (hx : Timed x) : Timed y := by
  obtain ⟨-, -, hs, hfix⟩ := hx.task h.old
  have hmem : ∀ u ∈ y.activeTxn, u = t' ∨ u ∈ x.activeTxn := by
    intro u hu
    rw [h.new] at hu
    exact (List.mem_or_eq_of_mem_set hu).symm
  refine ⟨fun u hu => ?_, fun u hu => ?_, ?_, fun u hu => ?_⟩
  · rcases hmem u hu with rfl | hu
    · exact h.ok
    · exact hx.ok u hu
  · rcases hmem u hu with rfl | hu
    · exact h.alive
    · exact hx.alive u hu
  · rw [h.services]
    apply h.ticks.count
    rw [hs]
    exact hx.count
  · rcases hmem u hu with rfl | hu
    · rcases h.ticks.fixed with hc | hc | hc
      · rw [hc]
        exact hfix.imp_right h.past
      · exact .inl hc
      · right
        rw [h.services]
        exact hc
    · exact (hx.fixed u hu).imp_right h.past

end Acted

theorem init_timed (n : ℕ) (generator : SimpleTxnIDGenerator) (clock : ℕ → ℤ) (memory : Addr → V)
    (key : SetKey K) : Timed (init n ⟨generator, .ofClock clock⟩ memory key) := by
  have hmem : ∀ t ∈ (init n ⟨generator, .ofClock clock⟩ memory key :
      TransactionExecutor K V LocalServices).activeTxn,
      t = .init ⟨generator, .ofClock clock⟩ memory key := fun t ht => List.eq_of_mem_replicate ht
  refine ⟨fun t ht => ?_, fun t ht => ?_, ofClock_count clock, fun t ht => ?_⟩
  · rw [hmem t ht]
    exact .init _ _ _
  · rw [hmem t ht]
    exact .serving (.fresh rfl rfl rfl rfl rfl rfl rfl)
  · rw [hmem t ht]
    exact .inl rfl

section

variable {as : List (TaskAction K V LocalServices)}

theorem run_timed (hh : Dispatches handle) (hx : Timed x) (ha : ∀ a ∈ as, Own a)
    (h : run (act handle) x as = some y) : Timed y := by
  apply run_invariant_of_mem _ hx h
  intro z a z' hmem hz hs
  obtain ⟨i, t, t', hact⟩ := act_cases hh hz (ha a hmem) hs
  exact hact.timed hz

theorem run_past (hh : Dispatches handle) (hx : Timed x) (ha : ∀ a ∈ as, Own a) {c : ℤ}
    (hc : Past c x.services.provider) (h : run (act handle) x as = some y) :
    Past c y.services.provider := by
  have hboth : Timed y ∧ Past c y.services.provider := by
    apply run_invariant_of_mem (I := fun z => Timed z ∧ Past c z.services.provider) _ ⟨hx, hc⟩ h
    intro z a z' hmem hz hs
    obtain ⟨i, t, t', hact⟩ := act_cases hh hz.1 (ha a hmem) hs
    exact ⟨hact.timed hz.1, hact.past hz.2⟩
  exact hboth.2

theorem run_log (hh : Dispatches handle) (hx : Timed x) {j : ℕ}
    (ha : ∀ a ∈ as, Own a ∧ ∀ r, a ≠ .launch j r) {ev : Event K V}
    {t : TransactionTask K V LocalServices} (ht : x.task j = some t) (hev : ev ∈ t.execution.log)
    (h : run (act handle) x as = some y) :
    ∀ u, y.task j = some u → ev ∈ u.execution.log := by
  have hboth : Timed y ∧ ∃ u, y.task j = some u ∧ ev ∈ u.execution.log := by
    apply run_invariant_of_mem
      (I := fun z => Timed z ∧ ∃ u, z.task j = some u ∧ ev ∈ u.execution.log) _ ⟨hx, t, ht, hev⟩ h
    rintro z a z' hmem ⟨hz, u, hu, hev⟩ hs
    obtain ⟨i, w, w', hact⟩ := act_cases hh hz (ha a hmem).1 hs
    refine ⟨hact.timed hz, ?_⟩
    by_cases hj : j = i
    · subst hj
      obtain rfl := Option.some.inj (hu.symm.trans hact.old)
      exact ⟨_, hact.task_self, hact.keeps (ha a hmem).2 hev⟩
    · obtain ⟨v, hv, -⟩ := task_eq_some.mp hu
      have hv' : z'.activeTxn[j]? = some v := by
        rw [hact.new, List.getElem?_set_ne (Ne.symm hj), hv]
      have ht' := task_eq_some.mpr ⟨v, hv', rfl⟩
      refine ⟨_, ht', ?_⟩
      rw [hact.task_ne hj hu ht']
      exact hev
  intro u hu
  obtain ⟨-, w, hw, hev⟩ := hboth
  obtain rfl := Option.some.inj (hu.symm.trans hw)
  exact hev

end

end TransactionExecutor

theorem mem_proposals {K V : Type} {log : List (Event K V)} {c : HandlerCall K} :
    Event.issued .setCommitTs c ∈ log ↔
      (Op.setCommitTs, c) ∈ (issuedCalls log).filter fun p => p.1 = .setCommitTs := by
  rw [List.mem_filter, mem_issuedCalls]
  simp

theorem TransactionExecution.Alive.committed_ts {K V S : Type} [DecidableEq K] [Services S]
    {e : TransactionExecution K V S} (h : Alive e) (hfin : e.isTransactionFinished = true)
    (hs : e.status = .committed) {c : HandlerCall K} (hc : Event.issued .setCommitTs c ∈ e.log) :
    ∃ r : Reply V .setCommitTs, Event.answered .setCommitTs c r ∈ e.log ∧ r.isError = false ∧
      r.result = e.commitTimestamp ∧ 0 ≤ e.commitTimestamp := by
  obtain ⟨x, gaveUp, s, -, hp⟩ := h.finished hfin
  rcases hp.calls_finished hfin with ⟨rfl, -⟩ | ⟨rfl, hab, -⟩
  · obtain ⟨c', r, hr, he, hres, hpos⟩ := hp.facts.2.1.timestamped
    have hcc : c = c' :=
      hp.core.once.unique (by decide : 0 < Op.rank .setCommitTs) hc
        (hp.core.issued_of_answered hr)
    subst hcc
    exact ⟨r, hr, he, hres, hpos⟩
  · rw [hs] at hab
    cases hab

namespace TransactionExecutor

variable {K V : Type} [DecidableEq K] {handle : Handling K V LocalServices}
  {x y : TransactionExecutor K V LocalServices}

/-- Once a transaction of an executor has fixed the timestamp `c`, the clock of the executor is
past `c`, and so are the timestamps that its transactions propose and commit with from then on. -/
theorem timestamps_not_behind (hh : Dispatches handle) {n : ℕ} {generator : SimpleTxnIDGenerator}
    {clock : ℕ → ℤ} {memory : Addr → V} {key : SetKey K}
    {as bs : List (TaskAction K V LocalServices)} (ha : ∀ a ∈ as, Own a) (hb : ∀ a ∈ bs, Own a)
    (hx : run (act handle) (init n ⟨generator, .ofClock clock⟩ memory key) as = some x)
    {i : ℕ} {t : TransactionTask K V LocalServices} (ht : x.task i = some t) {c : ℤ}
    (hc : t.execution.commitTimestamp = c) (hfix : c ≠ -1)
    (hy : run (act handle) x bs = some y) :
    c ≤ y.services.provider.getTime.1 ∧
    ∀ a z, Own a → act handle y a = some z →
      ∀ j u u', y.task j = some u → z.task j = some u' → ∀ call,
        Event.issued .setCommitTs call ∈ u'.execution.log →
        Event.issued .setCommitTs call ∉ u.execution.log →
        ∃ id ts, call = .setCommitTimestamp id ts ∧ c ≤ ts ∧
          ∀ ds w v, (∀ d ∈ ds, Own d ∧ ∀ r, d ≠ .launch j r) →
            run (act handle) z ds = some w → w.task j = some v →
            (∀ r : Reply V .setCommitTs, Event.answered .setCommitTs call r ∈ v.execution.log →
              r.isError = false → (0 : ℤ) ≤ r.result → ts ≤ r.result) →
            v.execution.isTransactionFinished = true → v.execution.status = .committed →
            c ≤ v.execution.commitTimestamp := by
  have hxt : Timed x := run_timed hh (init_timed n generator clock memory key) ha hx
  have hpast : Past c x.services.provider := by
    subst hc
    exact (hxt.task ht).2.2.2.resolve_left hfix
  have hyt : Timed y := run_timed hh hxt hb hy
  have hyp : Past c y.services.provider := run_past hh hxt hb hpast hy
  refine ⟨hyp.getTime.1, ?_⟩
  intro a z hown hz j u u' hu hu' call hnew hold
  obtain ⟨l, w, w', hact⟩ := act_cases hh hyt hown hz
  have hj : j = l := by
    by_contra hj
    exact hold (hact.task_ne hj hu hu' ▸ hnew)
  subst hj
  obtain rfl := Option.some.inj (hu.symm.trans hact.old)
  obtain rfl := Option.some.inj (hu'.symm.trans hact.task_self)
  obtain ⟨id, ts, rfl, hts⟩ := (hact.proposes call hnew).resolve_left hold
  refine ⟨id, ts, rfl, hts c hyp, ?_⟩
  intro ds v q hd hv hq hraise hfin hst
  have hzt := hact.timed hyt
  have hlog := run_log hh hzt hd hact.task_self hnew hv q hq
  have hvt : Timed v := run_timed hh hzt (fun d hmem => (hd d hmem).1) hv
  obtain ⟨r, hr, he, hres, hpos⟩ := (hvt.task hq).2.1.committed_ts hfin hst hlog
  have hle := hraise r hr he (by rw [hres]; exact hpos)
  rw [hres] at hle
  exact Int.le_trans (hts c hyp) hle

section

def sampleExecutor : TransactionExecutor ℕ ℕ LocalServices :=
  init 2 ⟨.ofBase 0 100, .ofClock fun _ => 5⟩ (fun _ => 0) ⟨"t", 0⟩

def sampleBegin (i : ℕ) : List (TaskAction ℕ ℕ LocalServices) :=
  [.launch i ⟨i, .begin⟩, .push i ⟨i, .commit⟩, .slot (.serve i),
    .slot (.answer i .initTxn (sampleReply .initTxn)), .slot (.visit i 0), .slot (.serve i)]

def sampleEnd (i : ℕ) (ts : ℤ) : List (TaskAction ℕ ℕ LocalServices) :=
  [.slot (.answer i .setCommitTs ⟨false, ts, []⟩), .slot (.visit i 0), .slot (.visit i 0),
    .slot (.visit i 0), .slot (.answer i .updateTxnStatusToCommit (sampleReply _)),
    .slot (.visit i 0), .slot (.visit i 0)]

structure SampleView where
  finished : Bool
  status : TxnStatus
  commitTimestamp : ℤ
  proposed : List (Op × HandlerCall ℕ)
  raised : Bool
  deriving DecidableEq

def sampleView (i : ℕ) (x : TransactionExecutor ℕ ℕ LocalServices) : Option SampleView :=
  (x.task i).map fun t => ⟨t.execution.isTransactionFinished, t.execution.status,
    t.execution.commitTimestamp, (issuedCalls t.execution.log).filter fun p => p.1 = .setCommitTs,
    t.execution.log.all fun
      | .answered .setCommitTs _ r => decide ((8 : ℤ) ≤ r.result)
      | _ => true⟩

theorem timestamps_not_behind_sample : ∃ (x y z w : TransactionExecutor ℕ ℕ LocalServices)
    (v : TransactionTask ℕ ℕ LocalServices) (ts : ℤ),
    run (act RuntimeTransactionExecutor.handle) sampleExecutor
      (sampleBegin 0 ++ .slot (.visit 0 0) :: sampleEnd 0 6) = some x ∧
    run (act RuntimeTransactionExecutor.handle) x (sampleBegin 1) = some y ∧
    act RuntimeTransactionExecutor.handle y (.slot (.visit 1 0)) = some z ∧
    run (act RuntimeTransactionExecutor.handle) z (sampleEnd 1 9) = some w ∧
    w.task 1 = some v ∧ v.execution.status = .committed ∧
    Event.issued .setCommitTs (.setCommitTimestamp 2 ts) ∈ v.execution.log ∧
    6 ≤ y.services.provider.getTime.1 ∧ 6 ≤ ts ∧ 6 ≤ v.execution.commitTimestamp := by
  let handle : Handling ℕ ℕ LocalServices := RuntimeTransactionExecutor.handle
  let as := sampleBegin 0 ++ .slot (.visit 0 0) :: sampleEnd 0 6
  let cs := as ++ sampleBegin 1
  have hviews : (run (act handle) sampleExecutor as).map (sampleView 0) = some (some
        ⟨true, .committed, 6, [(.setCommitTs, .setCommitTimestamp 1 6)], false⟩) ∧
      (run (act handle) sampleExecutor cs).map (sampleView 1) = some (some
        ⟨false, .ongoing, -1, [], true⟩) ∧
      (run (act handle) sampleExecutor (cs ++ [.slot (.visit 1 0)])).map (sampleView 1) = some
        (some ⟨false, .ongoing, 8, [(.setCommitTs, .setCommitTimestamp 2 8)], true⟩) ∧
      (run (act handle) sampleExecutor (cs ++ .slot (.visit 1 0) :: sampleEnd 1 9)).map
        (sampleView 1) = some (some ⟨true, .committed, 9,
          [(.setCommitTs, .setCommitTimestamp 2 8)], true⟩) := by
    decide +kernel
  obtain ⟨hvx, hvy, hvz, hvw⟩ := hviews
  obtain ⟨x, hx, hvx⟩ := Option.map_eq_some_iff.mp hvx
  obtain ⟨y, hy, hvy⟩ := Option.map_eq_some_iff.mp hvy
  obtain ⟨z, hz, hvz⟩ := Option.map_eq_some_iff.mp hvz
  obtain ⟨w, hw, hvw⟩ := Option.map_eq_some_iff.mp hvw
  obtain ⟨y', hy', hz⟩ := run_append.mp hz
  obtain rfl := Option.some.inj (hy.symm.trans hy')
  obtain ⟨y', hy', hw⟩ := run_append.mp hw
  obtain rfl := Option.some.inj (hy.symm.trans hy')
  obtain ⟨z', hz', hz⟩ := run_cons.mp hz
  obtain rfl := Option.some.inj hz.symm
  obtain ⟨z', hz'', hw⟩ := run_cons.mp hw
  obtain rfl := Option.some.inj (hz'.symm.trans hz'')
  obtain ⟨x', hx', hy⟩ := run_append.mp hy
  obtain rfl := Option.some.inj (hx.symm.trans hx')
  obtain ⟨t, ht, hvt⟩ := Option.map_eq_some_iff.mp hvx
  obtain ⟨u, hu, hvu⟩ := Option.map_eq_some_iff.mp hvy
  obtain ⟨u', hu', hvu'⟩ := Option.map_eq_some_iff.mp hvz
  obtain ⟨v, hv, hvv⟩ := Option.map_eq_some_iff.mp hvw
  simp only [SampleView.mk.injEq] at hvt hvu hvu' hvv
  have hown : ∀ a ∈ as ++ sampleBegin 1 ++ .slot (.visit 1 0) :: sampleEnd 1 9, Own a := by
    simp [as, sampleBegin, sampleEnd, Own]
  obtain ⟨htime, hprop⟩ := timestamps_not_behind RuntimeTransactionExecutor.dispatches
    (fun a ha => hown a (by simp [ha])) (fun a ha => hown a (by simp [ha])) hx ht hvt.2.2.1
    (by decide) hy
  obtain ⟨id, ts, hc, hts, hcommit⟩ := hprop (.slot (.visit 1 0)) z (hown _ (by simp)) hz' 1 u u' hu
    hu' (.setCommitTimestamp 2 8) (mem_proposals.mpr (by rw [hvu'.2.2.2.1]; simp))
    (fun h => by simpa [hvu.2.2.2.1] using mem_proposals.mp h)
  cases hc
  refine ⟨x, y, z, w, v, 8, hx, hy, hz', hw, hv, hvv.2.1, ?_, htime, hts, ?_⟩
  · exact mem_proposals.mpr (by rw [hvv.2.2.2.1]; simp)
  · apply hcommit (sampleEnd 1 9) w v _ hw hv _ hvv.1 hvv.2.1
    · intro d hd
      exact ⟨hown d (by simp [hd]), fun r => by rintro rfl; simp [sampleEnd] at hd⟩
    · intro r hr _ _
      simpa using List.all_eq_true.mp hvv.2.2.2.2 _ hr

end

end TransactionExecutor

end Fugue
