import Fugue.Library.Flight
import Fugue.CommitDecision

namespace Fugue

open TransactionExecution

namespace TransactionExecution

variable {K V S : Type}

section

variable [DecidableEq K] [Services S]

/-- `Call` of an operation resets and calls its children before it returns. -/
def callEvents (op : Op) (e : TransactionExecution K V S) : List (FlightEvent Op) :=
  .call op :: ((e.children op).getD []).flatMap fun x => [.reset x, .call x]

def startEvents (op : Op) (e : TransactionExecution K V S) : List (FlightEvent Op) :=
  .reset op :: callEvents op e

/-- `Abort` starts with `CleanStack`. -/
def abortEvents : List (FlightEvent Op) :=
  [.clean, .reset .updateTxnStatusToAbort, .call .updateTxnStatusToAbort]

def dispatchEvents (r : OperationRequest K) (e : TransactionExecution K V S) :
    List (FlightEvent Op) :=
  match r with
  | .begin => startEvents .initTxn e
  | .insert .. => startEvents .insert e
  | .upsert .. => startEvents .upsert e
  | .update .. => startEvents .update e
  | .delete .. => startEvents .delete e
  | .read .. | .readOutside .. => startEvents .readOutside e
  | .readDataStore _ _ needToRead => if needToRead then startEvents .readDataStore e else []
  | .commit => startEvents .upload e.resetUpload
  | .abort => abortEvents

/-- `Next` marks the operation before it resets its successor. -/
def visitEvents (i : ℕ) (e : TransactionExecution K V S) : List (FlightEvent Op) :=
  match e.operationVector.slot i with
  | none => []
  | some op =>
    if e.isFinished op then
      match next op e with
      | .error _ => []
      | .ok (some op', e') => .next op :: startEvents op' (e'.setSlot i (some op'))
      | .ok (none, _) => [.next op]
    else []

def events (e : TransactionExecution K V S) : Action K V → List (FlightEvent Op)
  | .dispatch r => dispatchEvents r e
  | .complete _ _ => []
  | .visit i => visitEvents i e
  | .tidy => if e.status = .aborting then abortEvents else []

theorem callLeaf_stack (op : Op) (e : TransactionExecution K V S) :
    (callLeaf op e).operationVector = e.operationVector := by
  have hi : ((e.setMoveToNext op false).issueCall op).operationVector = e.operationVector := by
    rw [issueCall_eq]
    rfl
  cases op with
  | setCommitTs =>
    simp only [callLeaf, setCommitTsCallImpl]
    rw [issueCall_eq]
    rfl
  | writeToLog =>
    simp only [callLeaf, writeToLogCallImpl]
    split <;> rfl
  | update =>
    simp only [callLeaf, updateCallImpl]
    repeat' split
    all_goals rfl
  | delete =>
    simp only [callLeaf, deleteCallImpl]
    repeat' split
    all_goals rfl
  | _ => exact hi

theorem call_stack (op : Op) (e : TransactionExecution K V S) :
    (call op e).operationVector = e.operationVector ++ ((e.children op).getD []).map some := by
  have hF : ∀ F : Family K V S, (call F.parent e).operationVector =
      e.operationVector ++ ((e.children F.parent).getD []).map some := by
    intro F
    rw [F.call_parent, (invokeAll_invoked F _ _).stack, F.children_parent]
    rfl
  have hr : ((e.setMoveToNext op false).resetReadOutside e.args.writeKey
      |>.invoke .readOutside).operationVector = e.operationVector ++ [some .readOutside] := by
    rw [invoke, callLeaf_stack]
    rfl
  have hl : (callLeaf op e).operationVector = e.operationVector ++ [] := by
    rw [callLeaf_stack, List.append_nil]
  cases op with
  | upload => exact hF uploadFamily
  | validate => exact hF validateFamily
  | postProcessingAfterCommit => exact hF commitFamily
  | postProcessingAfterAbort => exact hF deleteFamily
  | releaseReadCounter => exact hF releaseFamily
  | insert | upsert => exact hr
  | _ => exact hl

omit [DecidableEq K] [Services S] in
theorem Serving.unique {e : TransactionExecution K V S} (h : Serving e) :
    e.operationVector.Unique := by
  cases h with
  | idle n h size stacked => exact stacked.occupied.unique
  | single n h size op hop stacked moved => exact stacked.occupied.unique
  | reading n h parent hp stacked read => exact stacked.occupied.unique
  | returned n h size op hop stacked moved => exact stacked.occupied.unique
  | instant n h size op hop stacked => exact stacked.occupied.unique

theorem Alive.unique {e : TransactionExecution K V S} (h : Alive e) :
    e.operationVector.Unique := by
  cases h with
  | serving h => exact h.unique
  | ending x gaveUp s entries h => exact h.stacked.occupied.unique

end

section

variable [DecidableEq K] [Services S] {e e' : TransactionExecution K V S}
  {h : List (FlightEvent Op)}

theorem start_stack (op : Op) (e : TransactionExecution K V S) :
    (start op e).operationVector =
      e.operationVector.pushBack op ++ ((e.children op).getD []).map some :=
  call_stack op (e.push op)

theorem slot_start {op y : Op} (hv : e.operationVector = []) {i : ℕ}
    (hi : (start op e).operationVector.slot i = some y) :
    y = op ∨ y ∈ (e.children op).getD [] := by
  rw [start_stack, hv] at hi
  rcases Slots.of_slot_append hi with hi | hi
  · left
    rw [Slots.slot_pushBack] at hi
    split at hi
    · exact (Option.some.inj hi).symm
    · simp at hi
  · right
    obtain ⟨x, hx, hxy⟩ := List.mem_map.mp hi
    obtain rfl := Option.some.inj hxy
    exact hx

theorem start_tracked {op : Op} (ht : Tracked e.operationVector h)
    (hu : (start op e).operationVector.Unique) :
    Tracked (start op e).operationVector (h ++ startEvents op e) := by
  rw [start_stack] at hu ⊢
  have hb := (ht.pushBack hu.of_append).pushAll hu
  rwa [List.append_assoc] at hb

theorem abort_tracked (ht : Tracked e.operationVector h) (hv : ∀ x, ¬ e.operationVector.Holds x) :
    Tracked e.abort.operationVector (h ++ abortEvents) := by
  have hb := (ht.clean hv).pushBack (x := Op.updateTxnStatusToAbort)
    (Slots.unique_nil.pushBack (Slots.not_holds_nil _))
  rwa [List.append_assoc] at hb

theorem dispatch_tracked (r : OperationRequest K) (ht : Tracked e.operationVector h)
    (hv : e.operationVector = []) (hu : (e.dispatch r).operationVector.Unique) :
    Tracked (e.dispatch r).operationVector (h ++ dispatchEvents r e) := by
  cases r with
  | «begin» | insert key record | upsert key record | update key record | delete key
  | read key record | readOutside key record | commit => exact start_tracked ht hu
  | readDataStore key record needToRead =>
    cases needToRead with
    | true =>
      simp only [dispatch, dispatchEvents, if_true] at hu ⊢
      exact start_tracked ht hu
    | false =>
      simp only [dispatchEvents, Bool.false_eq_true, if_false, List.append_nil]
      exact ht
  | abort =>
    apply abort_tracked (e := { e with currentRequest := some .abort, requestFinished := false }) ht
    intro x
    simp only [hv]
    exact Slots.not_holds_nil x

theorem visit_tracked {i : ℕ} {b : Bool} (ht : Tracked e.operationVector h)
    (hu : e.operationVector.Unique) (hv : visit i e = .ok (e', b)) (hu' : e'.operationVector.Unique) :
    Tracked e'.operationVector (h ++ visitEvents i e) := by
  unfold visit at hv
  unfold visitEvents
  cases hi : e.operationVector.slot i with
  | none =>
    simp only [hi] at hv
    cases hv
    rw [List.append_nil]
    exact ht
  | some op =>
    simp only [hi] at hv
    simp only
    by_cases hf : e.isFinished op = true
    · rw [if_pos hf] at hv ⊢
      cases hn : next op e with
      | error m =>
        rw [hn] at hv
        cases hv
      | ok p =>
        obtain ⟨o, e₁⟩ := p
        have hvec := (next_advanced hn).operationVector
        rw [hn] at hv
        cases o with
        | none =>
          cases hv
          simp only
          rw [setSlot, hvec]
          exact ht.next hu hi
        | some y =>
          cases hv
          simp only
          have hstack := call_stack y (e₁.setSlot i (some y))
          rw [hstack] at hu' ⊢
          rw [setSlot, hvec] at hu' ⊢
          have hb := (ht.replace hu hi hu'.of_append).pushAll hu'
          rwa [List.append_assoc] at hb
    · rw [if_neg hf] at hv ⊢
      cases hv
      rw [List.append_nil]
      exact ht

end

end TransactionExecution

/-- An execution with what was done to its operation objects since its `Reset`. -/
structure RecordedExecution (K V S : Type) extends TransactionExecution K V S where
  history : List (FlightEvent Op)

def RecordedExecution.step {K V S : Type} [DecidableEq K] [Services S]
    (s : RecordedExecution K V S) (a : Action K V) : Option (RecordedExecution K V S) :=
  (s.toTransactionExecution.step a).map fun e => ⟨e, s.history ++ s.events a⟩

namespace RecordedExecution

variable {K V S : Type} [DecidableEq K] [Services S] {s s' : RecordedExecution K V S}
  {a : Action K V}

theorem step_tracked (hal : Alive s.toTransactionExecution)
    (ht : Tracked s.operationVector s.history) (h : s.step a = some s') :
    Tracked s'.operationVector s'.history := by
  obtain ⟨e, he, rfl⟩ := Option.map_eq_some_iff.mp h
  have hu' := (hal.step he).unique
  cases a with
  | dispatch r =>
    simp only [TransactionExecution.step] at he
    split at he
    · next hd =>
      cases he
      exact dispatch_tracked r ht hd.1 hu'
    · cases he
  | complete op reply =>
    obtain ⟨c, hc⟩ := complete_cases he
    change Tracked e.operationVector (s.history ++ [])
    rw [hc.operationVector, List.append_nil]
    exact ht
  | visit i =>
    simp only [TransactionExecution.step] at he
    cases hv : TransactionExecution.visit i s.toTransactionExecution with
    | error m =>
      rw [hv] at he
      cases he
    | ok p =>
      rw [hv] at he
      cases he
      exact visit_tracked (b := p.2) ht hal.unique hv hu'
  | tidy =>
    simp only [TransactionExecution.step] at he
    split at he
    · cases he
    · cases he
      change Tracked (tidy s.toTransactionExecution).operationVector (s.history ++ if _ then _ else _)
      unfold tidy
      split
      · next hs =>
        refine abort_tracked (e := { s.toTransactionExecution with status := .aborted }) ht ?_
        rintro x ⟨i, hi⟩
        rw [show s.operationVector.slot i = none from hal.slot_of_aborting hs i] at hi
        cases hi
      · rw [List.append_nil]
        exact ht.trim

/-- When an abort cleans the stack, all the calls of the transaction were answered. -/
theorem answered_of_clean (hal : Alive s.toTransactionExecution) (h : s.step a = some s')
    (hc : .clean ∈ s.events a) :
    s.pending = [] ∧ (issuedCalls s.log).Perm (answeredCalls s.log) := by
  obtain ⟨e, he, rfl⟩ := Option.map_eq_some_iff.mp h
  have hstart : ∀ op (z : TransactionExecution K V S), .clean ∉ startEvents op z := by
    intro op z
    simp [startEvents, callEvents]
  cases a with
  | dispatch r =>
    simp only [TransactionExecution.step] at he
    split at he
    · next hd =>
      have hset := hal.settled hd.1 hd.2
      exact ⟨hset.pending, hset.handled⟩
    · cases he
  | complete op reply => cases hc
  | visit i =>
    exfalso
    simp only [events, visitEvents] at hc
    split at hc
    · cases hc
    · split at hc
      · split at hc
        · cases hc
        · rcases List.mem_cons.mp hc with hc | hc
          · cases hc
          · exact hstart _ _ hc
        · simp at hc
      · cases hc
  | tidy =>
    simp only [events] at hc
    split at hc
    · next hs =>
      obtain ⟨x, gaveUp, hp⟩ := hal.failing hs
      have hpend : s.pending = [] := List.eq_nil_iff_forall_not_mem.mpr fun p hpm =>
        (hp.stacked.pending_member p hpm).1
      refine ⟨hpend, ?_⟩
      have hhandled := hp.core.handled
      rwa [hpend, List.append_nil] at hhandled
    · cases hc

/-- In every run of a transaction each operation that was called and did not move on yet is in one
slot of the stack, none of these operations was reset or called, and an abort that cleans the stack
finds all handler calls answered. -/
theorem nothing_dropped {e : TransactionExecution K V S} (hv : e.operationVector = [])
    (hp : e.pending = []) {as : List (Action K V)} (hr : run step ⟨e.reset, []⟩ as = some s) :
    (∀ op, InFlight s.history op → ∃! i, s.operationVector.slot i = some op) ∧
    (∀ pre ev post op, s.history = pre ++ ev :: post → ev = .reset op ∨ ev = .call op →
      ¬ InFlight pre op) ∧
    ∀ a s', s.step a = some s' → .clean ∈ s.events a →
      s.pending = [] ∧ (issuedCalls s.log).Perm (answeredCalls s.log) := by
  have hinv : Alive s.toTransactionExecution ∧ Tracked s.operationVector s.history := by
    refine run_invariant (I := fun z : RecordedExecution K V S =>
      Alive z.toTransactionExecution ∧ Tracked z.operationVector z.history) ?_ ⟨.reset hv hp, ?_⟩ hr
    · rintro z a z' ⟨hal, ht⟩ h
      refine ⟨?_, step_tracked hal ht h⟩
      obtain ⟨e', he, rfl⟩ := Option.map_eq_some_iff.mp h
      exact hal.step he
    · rw [show (RecordedExecution.toTransactionExecution ⟨e.reset, []⟩).operationVector = [] from hv]
      exact .nil
  obtain ⟨hal, ht⟩ := hinv
  refine ⟨fun op hop => ?_, ht.noRestart, fun a s' h hc => answered_of_clean hal h hc⟩
  obtain ⟨i, hi⟩ := ht.held op hop
  exact ⟨i, hi, fun j hj => hal.unique j i op hj hi⟩

def sampleFailure : List (TransactionExecution.Action ℕ ℕ) :=
  [.dispatch .begin, sampleAnswer .initTxn, .visit 0, .tidy, .dispatch (.upsert ⟨"t", 1⟩ (some 7)),
    sampleAnswer .readOutside, .visit 1, .visit 0, .tidy, .dispatch .commit,
    .complete (.uploadVersionEntry 0) ⟨true, (0 : ℤ), []⟩, .visit 1, .visit 0]

theorem nothing_dropped_sample : ∃ s : RecordedExecution ℕ ℕ LocalServices,
    run step ⟨sampleExecution.reset, []⟩ sampleFailure = some s ∧ .clean ∈ s.events .tidy ∧
    (∀ op, InFlight s.history op → ∃! i, s.operationVector.slot i = some op) ∧
    (∀ pre ev post op, s.history = pre ++ ev :: post → ev = .reset op ∨ ev = .call op →
      ¬ InFlight pre op) ∧
    ∀ a s', s.step a = some s' → .clean ∈ s.events a →
      s.pending = [] ∧ (issuedCalls s.log).Perm (answeredCalls s.log) := by
  have h : (run (step : RecordedExecution ℕ ℕ LocalServices → _) ⟨sampleExecution.reset, []⟩
      sampleFailure).map (fun s => s.status) = some .aborting := by decide +kernel
  obtain ⟨s, hr, hs⟩ := Option.map_eq_some_iff.mp h
  refine ⟨s, hr, ?_, nothing_dropped rfl rfl hr⟩
  rw [events, if_pos hs]
  exact List.mem_cons_self

end RecordedExecution

end Fugue
