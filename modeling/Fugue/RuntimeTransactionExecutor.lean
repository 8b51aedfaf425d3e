import Fugue.TransactionExecutor

namespace Fugue

variable {K V S : Type}

structure RuntimeTransactionExecutor (K V S : Type) extends TransactionExecutor K V S where
  requestQueuePool : List (SessionRequest K)
  currentRequest : Option (SessionRequest K)

namespace RuntimeTransactionExecutor

def init (n : ℕ) (services : S) (memory : Addr → V) (key : SetKey K) :
    RuntimeTransactionExecutor K V S :=
  { TransactionExecutor.init n services memory key with
    requestQueuePool := [], currentRequest := none }

def addRequest (x : RuntimeTransactionExecutor K V S) (r : SessionRequest K) :
    RuntimeTransactionExecutor K V S :=
  { x with requestQueuePool := x.requestQueuePool ++ [r] }

/-- The request that an iteration of `LaunchRequests` works on, which becomes the current one. -/
def fetch (x : RuntimeTransactionExecutor K V S) :
    Option (SessionRequest K × RuntimeTransactionExecutor K V S) :=
  match x.currentRequest, x.requestQueuePool with
  | some r, _ => some (r, x)
  | none, r :: queue => some (r, { x with currentRequest := some r, requestQueuePool := queue })
  | none, [] => none

def pushRequest (x : RuntimeTransactionExecutor K V S) (r : SessionRequest K) (i : ℕ)
    (t : TransactionTask K V S) : RuntimeTransactionExecutor K V S :=
  { x with toTransactionExecutor := x.setTask i (t.push r), currentRequest := none }

section

variable [Services S]

/-- An iteration of the loop of `LaunchRequests`: the request that it pushed and the slot. It
leaves the loop if it pushed none. -/
def launch (x : RuntimeTransactionExecutor K V S) :
    Except String (RuntimeTransactionExecutor K V S × Option (SessionRequest K × ℕ)) :=
  match x.fetch with
  | none => .ok (x, none)
  | some (r, x) =>
    if r.operation.isBegin then
      if x.activeTxnNumber ≥ x.concurrentTxnCount then .ok (x, none)
      else match x.search (fun t => !t.inUse) 0 with
        | none => .error "no empty txn task"
        | some (i, t) => .ok ({ x.pushRequest r i (t.reset r.sessionId) with
            activeTxnNumber := x.activeTxnNumber + 1 }, some (r, i))
    else match x.search (fun t => t.sessionId == r.sessionId) 0 with
      | none => .error "no session task"
      | some (i, t) => .ok (x.pushRequest r i t, some (r, i))

/-- The requests that `LaunchRequests` can still take. -/
def waiting (x : RuntimeTransactionExecutor K V S) : List (SessionRequest K) :=
  x.currentRequest.toList ++ x.requestQueuePool

omit [Services S] in
theorem fetch_cases {x x' : RuntimeTransactionExecutor K V S} {r : SessionRequest K}
    (h : x.fetch = some (r, x')) :
    x'.currentRequest = some r ∧ x.waiting = r :: x'.requestQueuePool ∧
      x'.toTransactionExecutor = x.toTransactionExecutor := by
  unfold fetch at h
  split at h
  · next r' hr =>
    obtain ⟨rfl, rfl⟩ := Prod.mk.inj (Option.some.inj h)
    exact ⟨hr, by simp [waiting, hr], rfl⟩
  · next r' queue hr hq =>
    obtain ⟨rfl, rfl⟩ := Prod.mk.inj (Option.some.inj h)
    exact ⟨rfl, by simp [waiting, hr, hq], rfl⟩
  · cases h

omit [Services S] in
theorem fetch_eq_none {x : RuntimeTransactionExecutor K V S} (h : x.fetch = none) :
    x.waiting = [] := by
  unfold fetch at h
  split at h
  · cases h
  · cases h
  · next hr hq => simp [waiting, hr, hq]

theorem launch_cases {x x' : RuntimeTransactionExecutor K V S}
    {p : Option (SessionRequest K × ℕ)} (h : x.launch = .ok (x', p)) :
    (x.fetch = none ∧ x' = x ∧ p = none) ∨ ∃ r y, x.fetch = some (r, y) ∧
      (r.operation.isBegin = true ∧ y.concurrentTxnCount ≤ y.activeTxnNumber ∧ x' = y ∧ p = none ∨
      r.operation.isBegin = true ∧ y.activeTxnNumber < y.concurrentTxnCount ∧
        (∃ i t, y.search (fun t => !t.inUse) 0 = some (i, t) ∧ p = some (r, i) ∧
          x' = { y.pushRequest r i (t.reset r.sessionId) with
            activeTxnNumber := y.activeTxnNumber + 1 }) ∨
      r.operation.isBegin = false ∧ ∃ i t,
        y.search (fun t => t.sessionId == r.sessionId) 0 = some (i, t) ∧ p = some (r, i) ∧
          x' = y.pushRequest r i t) := by
  unfold launch at h
  split at h
  · next hf =>
    cases h
    exact .inl ⟨hf, rfl, rfl⟩
  · next r y hf =>
    refine .inr ⟨r, y, hf, ?_⟩
    split at h
    · next hb =>
      split at h
      · next hn =>
        cases h
        exact .inl ⟨hb, hn, rfl, rfl⟩
      · next hn =>
        split at h
        · cases h
        · next i t hs =>
          cases h
          exact .inr (.inl ⟨hb, by omega, i, t, hs, rfl, rfl⟩)
    · next hb =>
      split at h
      · cases h
      · next i t hs =>
        cases h
        exact .inr (.inr ⟨by simpa using hb, i, t, hs, rfl, rfl⟩)

theorem launch_waiting {x x' : RuntimeTransactionExecutor K V S} {p : SessionRequest K × ℕ}
    (h : x.launch = .ok (x', some p)) : x'.waiting.length < x.waiting.length := by
  rcases launch_cases h with ⟨-, -, hp⟩ | ⟨r, y, hf, ⟨-, -, -, hp⟩ | ⟨-, -, i, t, -, -, rfl⟩ |
    ⟨-, i, t, -, -, rfl⟩⟩
  · cases hp
  · cases hp
  all_goals
    rw [(fetch_cases hf).2.1]
    simp [waiting, pushRequest]

def launchRequests (x : RuntimeTransactionExecutor K V S) :
    Except String (RuntimeTransactionExecutor K V S) :=
  match _h : x.launch with
  | .error m => .error m
  | .ok (x', none) => .ok x'
  | .ok (x', some _) => launchRequests x'
termination_by x.waiting.length
decreasing_by exact launch_waiting _h

end

section

variable [DecidableEq K] [Services S]

/-- The `switch` of `Advance`, which has no case for `ReadDataStore`. -/
def handle : Handling K V S := fun r e =>
  match r with
  | .readDataStore .. => { e with currentRequest := some r, requestFinished := false }
  | r => e.dispatch r

variable [Handler K V S]

def advance (x : RuntimeTransactionExecutor K V S) :
    Except String (RuntimeTransactionExecutor K V S) :=
  (x.toTransactionExecutor.advanceAll handle).map fun y => { x with toTransactionExecutor := y.1 }

/-- The condition of the loop of `Run`. -/
def goesOn (x : RuntimeTransactionExecutor K V S) : Bool :=
  !x.requestQueuePool.isEmpty || decide (x.activeTxnNumber > 0)

def isFinished (x : RuntimeTransactionExecutor K V S) : Bool :=
  x.requestQueuePool.isEmpty && decide (x.activeTxnNumber = 0)

/-- `Run` up to its `n`th call of `Advance`. -/
def runFor : ℕ → RuntimeTransactionExecutor K V S → Outcome (RuntimeTransactionExecutor K V S)
  | n, x =>
    if x.goesOn then
      match x.launchRequests with
      | .error m => .threw m
      | .ok y =>
        match n with
        | 0 => .running y
        | n + 1 =>
          match y.advance with
          | .error m => .threw m
          | .ok z => runFor n { z with toTransactionExecutor := z.sendBatch }
    else .returned x

end

end RuntimeTransactionExecutor

/-- A request that was appended to the queue of a slot, and whether the slot was in use. -/
structure Push (K : Type) where
  request : SessionRequest K
  slot : ℕ
  inUse : Bool
  deriving DecidableEq

/-- An executor with all requests that were added and all that were pushed, oldest first. -/
structure ExecutorRun (K V S : Type) extends RuntimeTransactionExecutor K V S where
  added : List (SessionRequest K)
  pushed : List (Push K)

/-- What can happen to an executor. Requests may be added at any time. -/
inductive ExecutorAction (K V S : Type)
  | addRequest (r : SessionRequest K)
  | launch
  | slot (a : SlotAction V S)

namespace ExecutorRun

open RuntimeTransactionExecutor

def init (n : ℕ) (services : S) (memory : Addr → V) (key : SetKey K) : ExecutorRun K V S :=
  { RuntimeTransactionExecutor.init n services memory key with added := [], pushed := [] }

/-- The slot is looked at after the request was pushed into it. -/
def record (s : ExecutorRun K V S) (r : SessionRequest K) (i : ℕ) : ExecutorRun K V S :=
  { s with pushed := s.pushed ++ [⟨r, i, (s.task i).any TransactionTask.inUse⟩] }

variable [DecidableEq K] [Services S]

def step (s : ExecutorRun K V S) : ExecutorAction K V S → Option (ExecutorRun K V S)
  | .addRequest r =>
    some { s with toRuntimeTransactionExecutor := s.addRequest r, added := s.added ++ [r] }
  | .launch =>
    match s.launch with
    | .error _ => none
    | .ok (x, none) => some { s with toRuntimeTransactionExecutor := x }
    | .ok (x, some p) => some (record { s with toRuntimeTransactionExecutor := x } p.1 p.2)
  | .slot a =>
    (TransactionExecutor.step handle s.toTransactionExecutor a).map fun x =>
      { s with toTransactionExecutor := x }

end ExecutorRun

end Fugue
