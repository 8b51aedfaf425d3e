import Fugue.CommitDecision

namespace Fugue

variable {K V S : Type}

namespace OperationRequest

def isBegin : OperationRequest K → Bool
  | .begin => true
  | _ => false

def isEnd : OperationRequest K → Bool
  | .commit | .abort => true
  | _ => false

end OperationRequest

/-- An `OperationRequest` of the source, which has the id of its session as a field. -/
structure SessionRequest (K : Type) where
  sessionId : ℤ
  operation : OperationRequest K
  deriving DecidableEq

structure TransactionRequest (K : Type) where
  operationRequestQueue : List (SessionRequest K)
  current : ℕ

namespace TransactionRequest

def init : TransactionRequest K := ⟨[], 0⟩

def pushRequest (t : TransactionRequest K) (r : SessionRequest K) : TransactionRequest K :=
  { t with operationRequestQueue := t.operationRequestQueue ++ [r] }

def currentRequest (t : TransactionRequest K) : Option (SessionRequest K × TransactionRequest K) :=
  t.operationRequestQueue[t.current]?.map fun r => (r, { t with current := t.current + 1 })

end TransactionRequest

/-- All executions of an executor use its services, and their records are in one memory. -/
def TransactionExecution.share (services : S) (memory : Addr → V)
    (e : TransactionExecution K V S) : TransactionExecution K V S :=
  { e with services := services, memory := memory }

/-- `MoveForward` after its loop, which it only has on a stack that is not empty. -/
def TransactionExecution.tidied [DecidableEq K] [Services S] (e : TransactionExecution K V S) :
    TransactionExecution K V S :=
  if e.operationVector = [] then e else e.tidy

structure TransactionTask (K V S : Type) where
  execution : TransactionExecution K V S
  request : TransactionRequest K
  inUse : Bool
  sessionId : ℤ

/-- The `switch` in which an executor calls the function of a request. -/
abbrev Handling (K V S : Type) :=
  OperationRequest K → TransactionExecution K V S → TransactionExecution K V S

namespace TransactionTask

def init (services : S) (memory : Addr → V) (key : SetKey K) : TransactionTask K V S :=
  ⟨.init services memory key, .init, false, 0⟩

def reset [Services S] (t : TransactionTask K V S) (sessionId : ℤ) : TransactionTask K V S :=
  ⟨t.execution.reset, .init, true, sessionId⟩

def release (t : TransactionTask K V S) : TransactionTask K V S := { t with inUse := false }

def push (t : TransactionTask K V S) (r : SessionRequest K) : TransactionTask K V S :=
  { t with request := t.request.pushRequest r }

def next (handle : Handling K V S) (t : TransactionTask K V S) : TransactionTask K V S :=
  match t.request.currentRequest with
  | some (r, q) => { t with execution := handle r.operation t.execution, request := q }
  | none => t

variable [DecidableEq K] [Services S]

/-- The end of `MoveForward`, and the request that an idle execution is then given. -/
def serve (handle : Handling K V S) (t : TransactionTask K V S) : TransactionTask K V S :=
  let t := { t with execution := t.execution.tidied }
  if t.execution.operationVector = [] ∧ t.execution.isTransactionFinished = false then
    t.next handle
  else t

end TransactionTask

structure TransactionExecutor (K V S : Type) where
  services : S
  memory : Addr → V
  activeTxn : List (TransactionTask K V S)
  activeTxnNumber : ℤ
  commitCount : ℕ
  abortCount : ℕ

structure Delivery (V : Type) where
  slot : ℕ
  op : Op
  reply : Reply V op

/-- A handler whose answers, and the times they come at, depend on the calls made so far. -/
class Handler (K : outParam Type) (V : outParam Type) (S : Type) where
  call : S → ℕ → Op → HandlerCall K → S × List (Delivery V)
  sendBatch : S → S × List (Delivery V)

/-- What can happen to a slot: an answer to one of its calls, an iteration of the loop of
`MoveForward`, and the rest of the body of the loop of `Advance`. The services can change with
each call of the handler. -/
inductive SlotAction (V S : Type)
  | answer (i : ℕ) (op : Op) (reply : Reply V op)
  | visit (i j : ℕ)
  | serve (i : ℕ)
  | services (services : S)

namespace TransactionExecutor

def init (n : ℕ) (services : S) (memory : Addr → V) (key : SetKey K) :
    TransactionExecutor K V S where
  services := services
  memory := memory
  activeTxn := List.replicate n (.init services memory key)
  activeTxnNumber := 0
  commitCount := 0
  abortCount := 0

def concurrentTxnCount (x : TransactionExecutor K V S) : ℕ := x.activeTxn.length

def task (x : TransactionExecutor K V S) (i : ℕ) : Option (TransactionTask K V S) :=
  x.activeTxn[i]?.map fun t => { t with execution := t.execution.share x.services x.memory }

def setTask (x : TransactionExecutor K V S) (i : ℕ) (t : TransactionTask K V S) :
    TransactionExecutor K V S :=
  { x with services := t.execution.services, memory := t.execution.memory,
           activeTxn := x.activeTxn.set i t }

def search (x : TransactionExecutor K V S) (p : TransactionTask K V S → Bool) (i : ℕ) :
    Option (ℕ × TransactionTask K V S) :=
  ((x.activeTxn.drop i).findIdx? p).bind fun j => (x.task (i + j)).map fun t => (i + j, t)

def setExecution (x : TransactionExecutor K V S) (i : ℕ) (e : TransactionExecution K V S) :
    TransactionExecutor K V S :=
  match x.task i with
  | none => x
  | some t => x.setTask i { t with execution := e }

def settle (x : TransactionExecutor K V S) (i : ℕ) (t : TransactionTask K V S) :
    TransactionExecutor K V S :=
  if t.execution.isTransactionFinished then
    { x.setTask i t.release with
      abortCount := x.abortCount + if t.execution.status = .aborted then 1 else 0
      commitCount := x.commitCount + if t.execution.status = .committed then 1 else 0
      activeTxnNumber := x.activeTxnNumber - 1 }
  else x.setTask i t

section

variable [DecidableEq K] [Services S]

def step (handle : Handling K V S) (x : TransactionExecutor K V S) :
    SlotAction V S → Option (TransactionExecutor K V S)
  | .answer i op reply =>
    (x.task i).bind fun t => (t.execution.complete op reply).map (x.setExecution i)
  | .visit i j =>
    (x.task i).bind fun t => (t.execution.step (.visit j)).map (x.setExecution i)
  | .serve i =>
    (x.task i).bind fun t => if t.inUse then some (x.settle i (t.serve handle)) else none
  | .services services => some { x with services := services }

variable [Handler K V S]

/-- An answer to no call is ignored. -/
def deliver (x : TransactionExecutor K V S) (d : Delivery V) : TransactionExecutor K V S :=
  match (x.task d.slot).bind fun t => t.execution.complete d.op d.reply with
  | none => x
  | some e => x.setExecution d.slot e

def deliverAll (x : TransactionExecutor K V S) (r : S × List (Delivery V)) :
    TransactionExecutor K V S :=
  r.2.foldl deliver { x with services := r.1 }

/-- The handler is called with what the slot `i` issued since its log was `log`. -/
def react (log : List (Event K V)) (i : ℕ) (x : TransactionExecutor K V S) :
    TransactionExecutor K V S :=
  match x.task i with
  | none => x
  | some t => (issuedCalls (t.execution.log.drop log.length)).foldl
      (fun x c => x.deliverAll (Handler.call x.services i c.1 c.2)) x

/-- The loop of `MoveForward` for the slot `i`, with what the handler does in its iterations. -/
def visitSlot (i : ℕ) : ℕ → TransactionExecutor K V S → Except String (TransactionExecutor K V S)
  | 0, x => .ok x
  | j + 1, x =>
    match x.task i with
    | none => .ok x
    | some t =>
      match t.execution.visit j with
      | .error m => .error m
      | .ok (e, true) => .ok ((x.setExecution i e).react t.execution.log i)
      | .ok (e, false) => visitSlot i j ((x.setExecution i e).react t.execution.log i)

def serveSlot (handle : Handling K V S) (i : ℕ) (x : TransactionExecutor K V S) :
    TransactionExecutor K V S × Bool :=
  match x.task i with
  | none => (x, false)
  | some t => ((x.settle i (t.serve handle)).react t.execution.log i,
      (t.serve handle).execution.isTransactionFinished)

/-- The body of the loop of `Advance`, and whether it released the slot. -/
def advanceSlot (handle : Handling K V S) (i : ℕ) (x : TransactionExecutor K V S) :
    Except String (TransactionExecutor K V S × Bool) :=
  match x.task i with
  | none => .ok (x, false)
  | some t =>
    if t.inUse then
      (visitSlot i t.execution.operationVector.length x).map (serveSlot handle i)
    else .ok (x, false)

def advanceFrom (handle : Handling K V S) : ℕ → ℕ → TransactionExecutor K V S →
    Except String (TransactionExecutor K V S × Bool)
  | _, 0, x => .ok (x, false)
  | i, n + 1, x =>
    match advanceSlot handle i x with
    | .error m => .error m
    | .ok (y, b) => (advanceFrom handle (i + 1) n y).map fun z => (z.1, b || z.2)

/-- The loop of `Advance` over the slots, and its `has_finished_txn`. -/
def advanceAll (handle : Handling K V S) (x : TransactionExecutor K V S) :
    Except String (TransactionExecutor K V S × Bool) :=
  advanceFrom handle 0 x.concurrentTxnCount x

def sendBatch (x : TransactionExecutor K V S) : TransactionExecutor K V S :=
  x.deliverAll (Handler.sendBatch x.services)

end

end TransactionExecutor

inductive TaskAction (K V S : Type)
  | launch (i : ℕ) (r : SessionRequest K)
  | push (i : ℕ) (r : SessionRequest K)
  | slot (a : SlotAction V S)

def TransactionExecutor.act [DecidableEq K] [Services S] (handle : Handling K V S)
    (x : TransactionExecutor K V S) : TaskAction K V S → Option (TransactionExecutor K V S)
  | .launch i r =>
    (x.task i).bind fun t => if t.inUse then none else
      some { x.setTask i ((t.reset r.sessionId).push r) with
        activeTxnNumber := x.activeTxnNumber + 1 }
  | .push i r => (x.task i).map fun t => x.setTask i (t.push r)
  | .slot a => step handle x a

/-- How a call of `Run` that may not return is observed. -/
inductive Outcome (α : Type)
  | returned (x : α)
  | running (x : α)
  | threw (message : String)

end Fugue
