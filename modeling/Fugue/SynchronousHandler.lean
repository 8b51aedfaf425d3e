import Fugue.CommitDecision

/-! A handler that completes its calls at once. What a call computes does not look at answers, so
those that arrive during a call are put after it. -/

namespace Fugue

namespace TransactionExecution

variable {K V S : Type} [DecidableEq K]

section

variable (reply : (op : Op) → HandlerCall K → Reply V op)

def answer : List (Op × HandlerCall K) → TransactionExecution K V S → TransactionExecution K V S
  | [], e => e
  | p :: l, e => answer l ((e.complete p.1 (reply p.1 p.2)).getD e)

def answerAll (e : TransactionExecution K V S) : TransactionExecution K V S :=
  answer reply e.pending e

variable [Services S]

/-- `visit` with a handler that completes the calls it is given. -/
def visitSync (i : ℕ) (e : TransactionExecution K V S) :
    Except String (TransactionExecution K V S × Bool) :=
  (visit i e).map fun p => (answerAll reply p.1, p.2)

def visitAllSync : ℕ → TransactionExecution K V S → Except String (TransactionExecution K V S)
  | 0, e => .ok e
  | i + 1, e =>
    match visitSync reply i e with
    | .error m => .error m
    | .ok (e', true) => .ok e'
    | .ok (e', false) => visitAllSync i e'

def moveForwardSync (e : TransactionExecution K V S) :
    Except String (TransactionExecution K V S) :=
  if e.operationVector = [] then .ok e
  else (visitAllSync reply e.operationVector.length e).map fun e' => answerAll reply e'.tidy

def dispatchSync (r : OperationRequest K) (e : TransactionExecution K V S) :
    TransactionExecution K V S :=
  answerAll reply (e.dispatch r)

def passes : ℕ → TransactionExecution K V S → Except String (TransactionExecution K V S)
  | 0, e => .ok e
  | n + 1, e =>
    match moveForwardSync reply e with
    | .error m => .error m
    | .ok e' => passes n e'

end

/-- The answer meets the assertions of the operation that reads it, and no call fails after which
the transaction could not go on. -/
def Lawful : (op : Op) → HandlerCall K → Reply V op → Prop
  | .readOutside, _, r => r.isError = false → ∃ v, pickVisibleVersion r.result = .ok v
  | .updateReadEntryMaxCommitTs _, .updateMaxCommitTsAndReread _ _ ts, r =>
    r.isError = false → r.result.version ≠ VersionEntry.kDefaultVersion → ts ≤ r.result.maxCommitTs
  | .initTxn, _, r | .updateTxnStatusToCommit, _, r | .updateTxnStatusToAbort, _, r
  | .postProcessingCommitEntryAfterCommit _, _, r
  | .postProcessingDeleteEntryAfterAbort _, _, r
  | .releaseReadCounterForEachEntry _, _, r => r.isError = false
  | _, _, _ => True

variable {reply : (op : Op) → HandlerCall K → Reply V op} {e e' : TransactionExecution K V S}

structure AnsweredAll (reply : (op : Op) → HandlerCall K → Reply V op)
    (e e' : TransactionExecution K V S) : Prop where
  pending : e'.pending = []
  data : e'.toExecutionState = { e.toExecutionState with memory := e'.memory }
  operationVector : e'.operationVector = e.operationVector
  flags : e'.flags = e.flags
  args : e'.args = e.args
  answered : ∀ op c, (op, c) ∈ e.pending →
    e'.handlerResult op = ⟨(reply op c).result, true, (reply op c).isError, 0⟩
  other : ∀ op, (∀ c, (op, c) ∉ e.pending) → e'.handlerResult op = e.handlerResult op

theorem complete_head {p : Op × HandlerCall K} {l : List (Op × HandlerCall K)}
    (hp : e.pending = p :: l) (r : Reply V p.1) :
    ∃ e', e.complete p.1 r = some e' ∧ Completed p.1 p.2 r e e' ∧ e'.pending = l := by
  have hfind : e.pending.find? (fun q => decide (q.1 = p.1)) = some p := by
    rw [hp, List.find?_cons]
    simp
  obtain ⟨e', he'⟩ : ∃ e', e.complete p.1 r = some e' := by
    rw [complete, hfind]
    exact ⟨_, rfl⟩
  have hpend : e'.pending = l := by
    rw [complete, hfind] at he'
    obtain rfl := Option.some.inj he'
    change e.pending.erase p = l
    rw [hp, List.erase_cons_head]
  refine ⟨e', he', ?_, hpend⟩
  rw [complete, hfind] at he'
  obtain rfl := Option.some.inj he'
  exact ⟨hp ▸ List.mem_cons_self, rfl, rfl, rfl, rfl, rfl, rfl, Function.update_self _ _ _,
    fun x hx => Function.update_of_ne hx _ _⟩

variable (reply) in
theorem answer_spec {l : List (Op × HandlerCall K)} (hl : e.pending = l)
    (hnodup : (l.map Prod.fst).Nodup) : AnsweredAll reply e (answer reply l e) := by
  induction l generalizing e with
  | nil =>
    refine ⟨hl, rfl, rfl, rfl, rfl, fun op c hc => ?_, fun _ _ => rfl⟩
    rw [hl] at hc
    cases hc
  | cons p l ih =>
    obtain ⟨e', he', hc, hp⟩ := complete_head hl (reply p.1 p.2)
    obtain ⟨hnew, hnodup⟩ := List.nodup_cons.mp hnodup
    have h := ih hp hnodup
    rw [answer, he', Option.getD_some]
    refine ⟨h.pending, ?_, h.operationVector.trans hc.operationVector, h.flags.trans hc.flags,
      h.args.trans hc.args, ?_, ?_⟩
    · rw [h.data, hc.data]
    · intro op c hmem
      rw [hl] at hmem
      by_cases hop : op = p.1
      · subst hop
        have hlater : ∀ c', (p.1, c') ∉ e'.pending := by
          intro c' hc'
          rw [hp] at hc'
          exact hnew (List.mem_map.mpr ⟨_, hc', rfl⟩)
        have hcp : c = p.2 := by
          rcases List.mem_cons.mp hmem with hmem | hmem
          · exact congrArg Prod.snd hmem
          · exact absurd (hp ▸ hmem) (hlater c)
        rw [h.other _ hlater, hcp, hc.self]
      · refine h.answered op c (hp ▸ (List.mem_cons.mp hmem).resolve_left ?_)
        rintro rfl
        exact hop rfl
    · intro op hop
      rw [hl] at hop
      have hne : op ≠ p.1 := by
        rintro rfl
        exact hop p.2 List.mem_cons_self
      rw [h.other op fun c hmem => hop c (List.mem_cons_of_mem _ (hp ▸ hmem)), hc.other op hne]

theorem answer_induction {I : TransactionExecution K V S → Prop}
    (hI : ∀ e e' op c, I e → Completed op c (reply op c) e e' → I e')
    {l : List (Op × HandlerCall K)} (hl : e.pending = l) (h : I e) : I (answer reply l e) := by
  induction l generalizing e with
  | nil => exact h
  | cons p l ih =>
    obtain ⟨e', he', hc, hp⟩ := complete_head hl (reply p.1 p.2)
    rw [answer, he', Option.getD_some]
    exact ih hp (hI e e' _ _ h hc)

theorem answerAll_of_nil (hp : e.pending = []) : answerAll reply e = e := by
  rw [answerAll, hp]
  rfl

end TransactionExecution

end Fugue
