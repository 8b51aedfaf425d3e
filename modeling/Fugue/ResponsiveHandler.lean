import Fugue.RemainingWork

namespace Fugue

variable {K V S : Type}

section

variable [Services S]

structure Stable (P : S → Prop) : Prop where
  generateID : ∀ s, P s → P (Services.generateID s).2
  getTime : ∀ s, P s → P (Services.getTime s).2
  setTime : ∀ s t, P s → P (Services.setTime s t)

namespace TransactionExecution

variable {P : S → Prop} {e e' e₁ : TransactionExecution K V S} {op : Op} {o : Option Op}

omit [Services S] in
theorem setResultRecord_services (e : TransactionExecution K V S) (record : Option Addr) :
    (e.setResultRecord record).services = e.services := by
  unfold setResultRecord
  split
  · rfl
  · split <;> rfl
  · rfl

theorem reset_stable (hP : Stable P) (h : P e.services) : P e.reset.services :=
  hP.getTime _ (hP.generateID _ h)

variable [DecidableEq K]

theorem next_stable (hP : Stable P) (h : P e.services) (hn : next op e = .ok (o, e₁)) :
    P e₁.services := by
  have hread : ∀ w z : TransactionExecution K V S, w.internalRead = .ok z →
      z.services = w.services := by
    intro w z hz
    unfold internalRead at hz
    split at hz
    · cases hz
    · cases hz
      split
      · rfl
      · exact setResultRecord_services _ _
    · cases hz
      rfl
  unfold TransactionExecution.next at hn
  cases op with
  | initTxn =>
    simp only [nextImpl] at hn
    split at hn <;> cases hn
    · exact hP.getTime _ (hP.generateID _ h)
    · exact h
  | setCommitTs =>
    simp only [nextImpl] at hn
    split at hn <;> cases hn
    · exact h
    · exact hP.setTime _ _ h
  | readOutside =>
    simp only [nextImpl] at hn
    split at hn
    · cases hn
      exact h
    · cases hr : (e.setFlags .readOutside ⟨true, true⟩).internalRead with
      | error m =>
        rw [hr] at hn
        cases hn
      | ok z =>
        rw [hr] at hn
        cases hn
        exact (congrArg P (hread _ _ hr)).mpr h
  | readDataStore =>
    simp only [nextImpl, readDataStoreNext] at hn
    cases hn
    refine (congrArg P ?_).mpr h
    split
    · rfl
    · split
      · rfl
      · exact setResultRecord_services _ _
  | insert | upsert =>
    simp only [nextImpl, insertNext, upsertNext] at hn
    cases hn
    refine (congrArg P ?_).mpr h
    repeat' split
    all_goals rfl
  | postProcessingCommitEntryAfterCommit i =>
    simp only [nextImpl, clearReleaseOfWrite] at hn
    split at hn <;> cases hn
    split <;> exact h
  | postProcessingDeleteEntryAfterAbort i =>
    simp only [nextImpl, deleteEntryNext] at hn
    repeat' split at hn
    all_goals cases hn
    all_goals exact h
  | _ =>
    simp only [nextImpl, uploadVersionEntryNext, updateReadEntryMaxCommitTsNext,
      pushConflictNext] at hn
    repeat' split at hn
    all_goals cases hn
    all_goals exact h

theorem call_stable (hP : Stable P) (h : P e.services) (op : Op) : P (call op e).services := by
  have hdata : (call op e).services = (callData op e).services :=
    congrArg ExecutionState.services (call_data op e)
  rw [hdata]
  cases op with
  | setCommitTs => exact hP.setTime _ _ (hP.getTime _ h)
  | update =>
    simp only [callData, updateCallImpl]
    repeat' split
    all_goals exact h
  | delete =>
    simp only [callData, deleteCallImpl]
    repeat' split
    all_goals exact h
  | writeToLog =>
    simp only [callData, writeToLogCallImpl]
    split <;> exact h
  | _ => exact h

theorem dispatch_stable (hP : Stable P) (h : P e.services) (r : OperationRequest K) :
    P (e.dispatch r).services := by
  have hs : ∀ op (z : TransactionExecution K V S), z.services = e.services →
      P (start op z).services := by
    intro op z hz
    apply call_stable hP
    exact (congrArg P hz).mpr h
  cases r with
  | readDataStore key record needToRead =>
    simp only [dispatch]
    split
    · exact hs _ _ rfl
    · exact h
  | abort => exact h
  | _ => exact hs _ _ rfl

theorem tidied_stable (h : P e.services) : P e.tidied.services := by
  unfold tidied tidy
  split
  · exact h
  · split <;> exact h

theorem visit_stable (hP : Stable P) (h : P e.services) {j : ℕ} {b : Bool}
    (hv : visit j e = .ok (e', b)) : P e'.services := by
  rcases visit_cases hv with rfl | ⟨op, o, e₁, -, -, hn, -, ⟨-, rfl⟩ | ⟨y, -, rfl⟩⟩
  · exact h
  · have h₁ : P e₁.services := next_stable hP h hn
    exact h₁
  · have h₁ : P e₁.services := next_stable hP h hn
    exact call_stable (e := e₁.setSlot j (some y)) hP h₁ y

end TransactionExecution

end

/-- What the `Next` of an operation throws when an answer contradicts what the store promises. -/
def thrownMessages : List String :=
  [recoverMessage, "assert(v2.begin_ts_ != VersionEntry::kDefaultBeginTs)",
    "assert(version_entry.max_commit_ts_ >= execution_->GetCommitTs())"]

namespace TransactionExecution

variable [DecidableEq K] [Services S] {e : TransactionExecution K V S} {op : Op} {m : String}

theorem next_error (h : next op e = .error m) : m ∈ thrownMessages := by
  have hpick : ∀ v : VersionEntry × VersionEntry, pickVisibleVersion v = .error m →
      m ∈ thrownMessages := by
    intro v hv
    unfold pickVisibleVersion internalPickVisibleVersion at hv
    repeat' split at hv
    all_goals cases hv
    all_goals simp [thrownMessages]
  unfold TransactionExecution.next at h
  cases op with
  | readOutside =>
    simp only [nextImpl] at h
    split at h
    · cases h
    · cases hr : (e.setFlags .readOutside ⟨true, true⟩).internalRead with
      | ok z =>
        rw [hr] at h
        cases h
      | error m' =>
        rw [hr] at h
        cases h
        unfold internalRead at hr
        split at hr
        · next hv =>
          cases hr
          exact hpick _ hv
        · cases hr
        · cases hr
  | _ =>
    simp only [nextImpl, updateReadEntryMaxCommitTsNext] at h
    repeat' split at h
    all_goals cases h
    all_goals simp [thrownMessages]

theorem visit_error {j : ℕ} (h : visit j e = .error m) : m ∈ thrownMessages := by
  unfold visit at h
  split at h
  · cases h
  · split at h
    · split at h
      · next hn =>
        cases h
        exact next_error hn
      · cases h
      · cases h
    · cases h

end TransactionExecution

section

variable [Handler K V S]

def Answers (r : S × List (Delivery V)) (i : ℕ) (op : Op) : Prop :=
  ∃ d ∈ r.2, d.slot = i ∧ d.op = op

def Delivery.fails (d : Delivery V) : Bool := decide (d.op = .initTxn) && d.reply.isError

/-- Each call is answered, at once or after some more calls and batches: `owes s i op n` says that
at most `n` more calls of `SendBatch` go by before the answer to `op` of the slot `i`. A `NewTxn`
that fails is repeated, and at most `failures s` of them fail. -/
structure Responsive [Services S] (owes : S → ℕ → Op → ℕ → Prop) (failures : S → ℕ) : Prop where
  called : ∀ (s : S) i op c, Answers (Handler.call s i op c) i op ∨
    ∃ n, owes (Handler.call s i op c).1 i op n
  kept : ∀ (s : S) i op n j y c, owes s i op n → Answers (Handler.call s j y c) i op ∨
    ∃ m ≤ n, owes (Handler.call s j y c).1 i op m
  batch : ∀ (s : S) i op n, owes s i op n → Answers (Handler.sendBatch s) i op ∨
    ∃ m < n, owes (Handler.sendBatch s).1 i op m
  owing : ∀ i op n, Stable fun s : S => owes s i op n
  failing : ∀ (s : S) i op c, failures (Handler.call s i op c).1 +
    (Handler.call s i op c).2.countP Delivery.fails ≤ failures s
  failingBatch : ∀ s : S, failures (Handler.sendBatch s).1 +
    (Handler.sendBatch s).2.countP Delivery.fails ≤ failures s
  spared : ∀ n, Stable fun s : S => failures s ≤ n

end

end Fugue
