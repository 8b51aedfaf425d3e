import Fugue.TransactionOperation

namespace Fugue

namespace TransactionExecution

variable {K V S : Type} [DecidableEq K] [Services S]

/-- The body of the loop of `MoveForward`, and whether it breaks the loop. -/
def visit (i : ℕ) (e : TransactionExecution K V S) :
    Except String (TransactionExecution K V S × Bool) :=
  match e.operationVector.slot i with
  | none => .ok (e, false)
  | some op =>
    if e.isFinished op then
      match next op e with
      | .error m => .error m
      | .ok (some op', e') => .ok (call op' (e'.setSlot i (some op')), false)
      | .ok (none, e') => .ok (e'.setSlot i none, e'.status == .aborting)
    else .ok (e, false)

def visitAll : ℕ → TransactionExecution K V S → Except String (TransactionExecution K V S)
  | 0, e => .ok e
  | i + 1, e =>
    match visit i e with
    | .error m => .error m
    | .ok (e', true) => .ok e'
    | .ok (e', false) => visitAll i e'

/-- `TransactionExecution::Abort`. -/
def abort (e : TransactionExecution K V S) : TransactionExecution K V S :=
  { e with operationVector := [], result := Result.reset none }
    |>.resetResult .updateTxnStatusToAbort
    |>.push .updateTxnStatusToAbort |> call .updateTxnStatusToAbort

/-- What `MoveForward` does after its loop. -/
def tidy (e : TransactionExecution K V S) : TransactionExecution K V S :=
  if e.status = .aborting then { e with status := .aborted }.abort
  else { e with operationVector := e.operationVector.trim }

/-- `MoveForward` returns whether the stack of the new state is empty. -/
def moveForward (e : TransactionExecution K V S) : Except String (TransactionExecution K V S) :=
  if e.operationVector = [] then .ok e
  else (visitAll e.operationVector.length e).map tidy

def start (op : Op) (e : TransactionExecution K V S) : TransactionExecution K V S :=
  call op (e.push op)

def resetResultRecord (e : TransactionExecution K V S) (record : Option Addr) :
    TransactionExecution K V S :=
  { e with result := Result.reset record }

/-- A request that is dispatched becomes the current one and runs its own function. -/
def dispatch (r : OperationRequest K) (e : TransactionExecution K V S) :
    TransactionExecution K V S :=
  let e := { e with currentRequest := some r, requestFinished := false }
  match r with
  | .begin => e.resetResultRecord none |>.resetResult .initTxn |> start .initTxn
  | .insert key record => e.resetResultRecord record |>.resetWrite key record |> start .insert
  | .upsert key record => e.resetResultRecord record |>.resetWrite key record |> start .upsert
  | .update key record => e.resetResultRecord none |>.resetWrite key record |> start .update
  | .delete key => e.resetResultRecord none |>.resetWrite key none |> start .delete
  | .read key record => e.resetResultRecord record |>.resetReadOutside key |> start .readOutside
  | .readOutside key record =>
    e.resetResultRecord record |>.resetReadOutside key |> start .readOutside
  | .readDataStore key record needToRead =>
    let e := e.resetResultRecord record
    if needToRead then
      { e with args := { e.args with readDataStoreKey := key } }
        |>.setHandlerResult .readDataStore
          ⟨record, false, false, (e.handlerResult .readDataStore).refCnt⟩
        |> start .readDataStore
    else e.setResultFinished
  | .commit => e.resetResultRecord none |>.resetUpload |> start .upload
  | .abort => e.abort

/-- The handler answers a pending call: it fills the result object of the operation. -/
def complete (op : Op) (reply : Reply V op) (e : TransactionExecution K V S) :
    Option (TransactionExecution K V S) :=
  (e.pending.find? (·.1 = op)).map fun p =>
    TransactionExecution.setHandlerResult { e with
      memory := reply.copies.foldl (fun m (c : Addr × V) => Function.update m c.1 c.2) e.memory
      pending := e.pending.erase p
      log := e.log ++ [.answered op p.2 reply] } op ⟨reply.result, true, reply.isError, 0⟩

/-- What can happen to an execution. `visit` and `tidy` are the parts of `MoveForward`, so that
an answer may also arrive between two of its iterations. -/
inductive Action (K V : Type)
  | dispatch (r : OperationRequest K)
  | complete (op : Op) (reply : Reply V op)
  | visit (i : ℕ)
  | tidy

def step (e : TransactionExecution K V S) : Action K V → Option (TransactionExecution K V S)
  | .dispatch r =>
    if e.operationVector = [] ∧ e.isTransactionFinished = false then some (e.dispatch r) else none
  | .complete op reply => e.complete op reply
  | .visit i => ((e.visit i).map Prod.fst).toOption
  | .tidy => if e.operationVector = [] then none else some e.tidy

end TransactionExecution

end Fugue
