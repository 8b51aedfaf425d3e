import Fugue.TransactionExecutor

namespace Fugue

variable {K V S : Type}

/-- `requestQueuePool` is a vector of pointers, which has its size from the start. -/
structure AllAtOnceTransactionExecutor (K V S : Type) extends TransactionExecutor K V S where
  requestQueuePool : List (Option (SessionRequest K))
  pushIndex : ℕ
  popIndex : ℕ

namespace AllAtOnceTransactionExecutor

def init (n capacity : ℕ) (services : S) (memory : Addr → V) (key : SetKey K) :
    AllAtOnceTransactionExecutor K V S :=
  { TransactionExecutor.init n services memory key with
    requestQueuePool := List.replicate capacity none, pushIndex := 0, popIndex := 0 }

/-- The source does not check that the vector is long enough. -/
def addRequest (x : AllAtOnceTransactionExecutor K V S) (r : SessionRequest K) :
    AllAtOnceTransactionExecutor K V S :=
  { x with requestQueuePool := x.requestQueuePool.set x.pushIndex (some r),
           pushIndex := x.pushIndex + 1 }

def request (x : AllAtOnceTransactionExecutor K V S) (i : ℕ) : Option (SessionRequest K) :=
  (x.requestQueuePool[i]?).join

/-- The inner loop of `LaunchRequests`, which pushes the rest of a transaction into the slot `i`.
It moves to the next request before it reads it. -/
def pushTransaction (i : ℕ) (x : AllAtOnceTransactionExecutor K V S) :
    Except String (AllAtOnceTransactionExecutor K V S) :=
  if x.popIndex < x.pushIndex then
    match x.request (x.popIndex + 1), x.task i with
    | some r, some t =>
      if t.sessionId = r.sessionId then
        let y := { x with toTransactionExecutor := x.setTask i (t.push r),
                          popIndex := x.popIndex + 1 }
        if r.operation.isEnd then .ok y else pushTransaction i y
      else .error "assert(active_txn_[last_index].GetSessionID() == session_id)"
    | _, _ => .error "null pointer"
  else .ok x
termination_by x.pushIndex - x.popIndex

theorem pushTransaction_index {i : ℕ} {x y : AllAtOnceTransactionExecutor K V S}
    (h : pushTransaction i x = .ok y) : y.pushIndex = x.pushIndex ∧ x.popIndex ≤ y.popIndex := by
  fun_induction pushTransaction i x with
  | case1 x hlt r t hr ht hid z hend =>
    obtain rfl := Except.ok.inj h
    exact ⟨rfl, Nat.le_succ _⟩
  | case2 x hlt r t hr ht hid z hend ih =>
    obtain ⟨h1, h2⟩ := ih h
    exact ⟨h1, Nat.le_of_succ_le h2⟩
  | case3 => cases h
  | case4 => cases h
  | case5 =>
    cases h
    exact ⟨rfl, Nat.le_refl _⟩

section

variable [Services S]

/-- The loop of `LaunchRequests` from the `last_index` on. -/
def launchFrom (last : ℕ) (x : AllAtOnceTransactionExecutor K V S) :
    Except String (AllAtOnceTransactionExecutor K V S) :=
  if x.popIndex < x.pushIndex then
    match x.request x.popIndex with
    | none => .error "null pointer"
    | some r =>
      if r.operation.isBegin then
        if x.activeTxnNumber < x.concurrentTxnCount then
          match x.search (fun t => !t.inUse) last with
          | none => .error "no empty txn task"
          | some (i, t) =>
            match _h : pushTransaction i { x with
                toTransactionExecutor := { x.setTask i ((t.reset r.sessionId).push r) with
                  activeTxnNumber := x.activeTxnNumber + 1 } } with
            | .error m => .error m
            | .ok y => launchFrom (i + 1) { y with popIndex := y.popIndex + 1 }
        else .ok x
      else .error "assert(operation_request->operation_type_ == OperationType::Begin)"
  else .ok x
termination_by x.pushIndex - x.popIndex
decreasing_by
  obtain ⟨h1, h2⟩ := pushTransaction_index _h
  dsimp only at h1 h2 ⊢
  omega

def launchRequests (x : AllAtOnceTransactionExecutor K V S) :
    Except String (AllAtOnceTransactionExecutor K V S) := launchFrom 0 x

end

section

variable [DecidableEq K] [Services S]

/-- The `switch` of `Advance`. Without a driver `ReadDataStore` only resets the result. -/
def handle (datastoreDriver : Bool) : Handling K V S := fun r e =>
  match r, datastoreDriver with
  | .readDataStore _ record _, false =>
    { e with currentRequest := some r, requestFinished := false, result := Result.reset record }
  | r, _ => e.dispatch r

variable [Handler K V S]

/-- An iteration of the loop of `Advance`, and its `has_finished_txn`. -/
def sweep (datastoreDriver : Bool) (x : AllAtOnceTransactionExecutor K V S) :
    Except String (AllAtOnceTransactionExecutor K V S × Bool) :=
  (x.toTransactionExecutor.advanceAll (handle datastoreDriver)).map fun y =>
    ({ x with toTransactionExecutor := y.1.sendBatch }, y.2)

def goesOn (x : AllAtOnceTransactionExecutor K V S) : Bool :=
  x.popIndex != x.pushIndex || decide (x.activeTxnNumber > 0)

def isFinished (x : AllAtOnceTransactionExecutor K V S) : Bool :=
  x.popIndex == x.pushIndex && decide (x.activeTxnNumber = 0)

omit [DecidableEq K] [Handler K V S] in
def iterate (advance : AllAtOnceTransactionExecutor K V S →
    Outcome (AllAtOnceTransactionExecutor K V S)) (x : AllAtOnceTransactionExecutor K V S) :
    Outcome (AllAtOnceTransactionExecutor K V S) :=
  if x.goesOn then
    match x.launchRequests with
    | .error m => .threw m
    | .ok y => advance y
  else .returned x

def advanceFor (datastoreDriver : Bool) : ℕ → AllAtOnceTransactionExecutor K V S →
    Outcome (AllAtOnceTransactionExecutor K V S)
  | 0, x => .running x
  | n + 1, x =>
    match x.sweep datastoreDriver with
    | .error m => .threw m
    | .ok (y, true) => iterate (advanceFor datastoreDriver n) y
    | .ok (y, false) => advanceFor datastoreDriver n y

/-- `Run` up to the `n`th iteration of the loops of its calls of `Advance`. -/
def runFor (datastoreDriver : Bool) (n : ℕ) (x : AllAtOnceTransactionExecutor K V S) :
    Outcome (AllAtOnceTransactionExecutor K V S) :=
  iterate (advanceFor datastoreDriver n) x

end

end AllAtOnceTransactionExecutor

end Fugue
