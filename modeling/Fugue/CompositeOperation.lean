import Fugue.OperationStack

namespace Fugue

namespace TransactionExecution

variable {K V S : Type}

theorem Quiet.alone {e e' : TransactionExecution K V S} {o : Option Op} (h : Quiet e e')
    (ha : Alone o e) : Alone o e' := by
  rw [h]
  exact ⟨ha.occupied, ha.pending⟩

theorem Alone.issue {e : TransactionExecution K V S} {y : Op} (h : Alone (some y) e)
    (hf : e.leafIsFinished y = false) (c : HandlerCall K) :
    Stacked none (· = y) ((e.setMoveToNext y false).issue y c) := by
  have hp : ((e.setMoveToNext y false).issue y c).pending = [(y, c)] := by
    change e.pending ++ [(y, c)] = [(y, c)]
    rw [h.pending]
    rfl
  refine ⟨by simp, ?_, ?_, ?_, ?_, ?_⟩
  · refine h.occupied.congr fun x => ?_
    constructor
    · intro hx
      obtain rfl := Option.some.inj hx
      exact .inr ⟨rfl, by simp [TransactionExecution.issue, setMoveToNext, setFlags]⟩
    · rintro (hx | ⟨rfl, -⟩)
      · cases hx
      · rfl
  · intro p hp'
    rw [hp] at hp'
    obtain rfl := List.mem_singleton.mp hp'
    exact ⟨rfl, hf⟩
  · rw [hp]
    exact List.nodup_singleton _
  · rintro x rfl hmv
    simp [TransactionExecution.issue, setMoveToNext, setFlags] at hmv
  · rintro x rfl hfx
    have : e.leafIsFinished x = true := hfx
    rw [hf] at this
    cases this

section

variable (child : ℕ → Op) (request : ExecutionState K V S → ℕ → Option (HandlerCall K))

def calls (x : ExecutionState K V S) (l : List ℕ) : List (Op × HandlerCall K) :=
  l.zipIdx.filterMap fun p => (request x p.1).map (child p.2, ·)

def issues (l : List (Op × HandlerCall K)) : List (Event K V) := l.map fun p => .issued p.1 p.2

end

theorem issueCall_eq (e : TransactionExecution K V S) (x : Op) :
    e.issueCall x = { e with pending := e.pending ++ ((e.handlerCall x).map (x, ·)).toList,
                             log := e.log ++ issues ((e.handlerCall x).map (x, ·)).toList } := by
  unfold issueCall
  cases e.handlerCall x <;> simp [issues, TransactionExecution.issue]

theorem issueCall_data (op : Op) (e : TransactionExecution K V S) :
    (e.issueCall op).toExecutionState = e.toExecutionState := by
  rw [issueCall_eq]

theorem calls_concat (child : ℕ → Op) (request : ExecutionState K V S → ℕ → Option (HandlerCall K))
    (x : ExecutionState K V S) (l : List ℕ) (index : ℕ) : calls child request x (l ++ [index]) =
      calls child request x l ++ ((request x index).map (child l.length, ·)).toList := by
  simp only [calls, List.zipIdx_append, List.filterMap_append]
  congr 1
  cases h : request x index <;> simp [h]

theorem mem_calls {child : ℕ → Op} {request : ExecutionState K V S → ℕ → Option (HandlerCall K)}
    {x : ExecutionState K V S} {l : List ℕ} {p : Op × HandlerCall K} :
    p ∈ calls child request x l ↔
      ∃ i index, l[i]? = some index ∧ p.1 = child i ∧ request x index = some p.2 := by
  simp only [calls, List.mem_filterMap, Option.map_eq_some_iff, Prod.exists, List.mem_zipIdx_iff_getElem?]
  constructor
  · rintro ⟨index, i, hi, c, hc, rfl⟩
    exact ⟨i, index, hi, rfl, hc⟩
  · rintro ⟨i, index, hi, hp, hc⟩
    exact ⟨index, i, hi, p.2, hc, by rw [← hp]⟩

theorem calls_nodup {child : ℕ → Op} (hinj : ∀ i j, child i = child j → i = j)
    {request : ExecutionState K V S → ℕ → Option (HandlerCall K)} (x : ExecutionState K V S)
    (l : List ℕ) : ((calls child request x l).map Prod.fst).Nodup := by
  induction l using List.reverseRecOn with
  | nil => simp [calls]
  | append_singleton l j ih =>
    rw [calls_concat, List.map_append]
    refine ih.append ?_ ?_
    · cases request x j <;> simp
    · intro y hy hy'
      obtain ⟨p, hp, rfl⟩ := List.mem_map.mp hy
      obtain ⟨i, index, hi, hpi, -⟩ := mem_calls.mp hp
      have hyj : p.1 = child l.length := by
        cases hr : request x j <;> simp [hr] at hy'
        exact hy'
      have hil := (List.getElem?_eq_some_iff.mp hi).1
      exact absurd (hinj _ _ (hpi.symm.trans hyj)) (Nat.ne_of_lt hil)

variable [DecidableEq K] [Services S]

/-- A composite operation: its `Call` runs through the indices that its `Reset` collected, and
resets and invokes one child for each. -/
structure Family (K V S : Type) [DecidableEq K] [Services S] where
  parent : Op
  child : ℕ → Op
  reset : TransactionExecution K V S → ℕ → ℕ → TransactionExecution K V S
  index : OperationArgs K → List ℕ
  entry : OperationArgs K → ℕ → ℕ
  request : ExecutionState K V S → ℕ → Option (HandlerCall K)
  child_injective : ∀ i j, child i = child j → i = j
  child_ne_parent : ∀ i, child i ≠ parent
  call_parent : ∀ e : TransactionExecution K V S,
    call parent e = (e.setMoveToNext parent false).invokeAll reset child (index e.args)
  call_child : ∀ (e : TransactionExecution K V S) i,
    callLeaf (child i) e = (e.setMoveToNext (child i) false).issueCall (child i)
  children_parent : ∀ e : TransactionExecution K V S,
    e.children parent = some ((List.range (index e.args).length).map child)
  reset_frame : ∀ (e : TransactionExecution K V S) i j, ∃ r, reset e i j =
    { e with args := (reset e i j).args,
             handlerResult := Function.update e.handlerResult (child i) r }
  reset_unfinished : ∀ (e : TransactionExecution K V S) i j,
    (reset e i j).leafIsFinished (child i) = false
  index_reset : ∀ (e : TransactionExecution K V S) i j, index (reset e i j).args = index e.args
  entry_reset : ∀ (e : TransactionExecution K V S) i j i',
    entry (reset e i j).args i' = if i' = i then j else entry e.args i'
  request_reset : ∀ (e : TransactionExecution K V S) i j,
    (((reset e i j).push (child i)).setMoveToNext (child i) false).handlerCall (child i) =
      request e.toExecutionState j

theorem update_entry (f : ℕ → ℕ) (i j i' : ℕ) :
    Function.update f i j i' = if i' = i then j else f i' := by
  by_cases h : i' = i
  · subst h; simp
  · simp [h]

def uploadFamily : Family K V S where
  parent := .upload
  child := .uploadVersionEntry
  reset := resetUploadVersionEntry
  index a := List.range a.uploadSize
  entry a := a.uploadEntry
  request x j := (x.keyWriteSet.key j).map fun k =>
    .uploadVersion k
      { version := (x.keyWriteSet.entry j).version, txId := x.txnId,
        beginTs := VersionEntry.kDefaultBeginTs, endTs := VersionEntry.kDefaultEndTs,
        maxCommitTs := 0, isDeleted := (x.keyWriteSet.entry j).isDeleted,
        readRecord := none, writeRecord := none }
  child_injective _ _ := Op.uploadVersionEntry.inj
  child_ne_parent _ := by simp
  call_parent _ := rfl
  call_child _ _ := rfl
  children_parent _ := by simp [children]
  reset_frame _ _ _ := ⟨_, rfl⟩
  reset_unfinished _ _ _ := by
    simp [resetUploadVersionEntry, resetResult, setHandlerResult, leafIsFinished]
  index_reset _ _ _ := rfl
  entry_reset _ _ _ _ := update_entry _ _ _ _
  request_reset e i j := by
    simp [handlerCall, resetUploadVersionEntry, resetResult, setHandlerResult, push, setMoveToNext,
      setFlags]

def validateFamily : Family K V S where
  parent := .validate
  child := .updateReadEntryMaxCommitTs
  reset := resetUpdateReadEntryMaxCommitTs
  index := OperationArgs.validateIndex
  entry := OperationArgs.rereadEntry
  request x j := (x.keyReadSet.key j).map fun k =>
    .updateMaxCommitTsAndReread k (x.keyReadSet.entry j).version x.commitTimestamp
  child_injective _ _ := Op.updateReadEntryMaxCommitTs.inj
  child_ne_parent _ := by simp
  call_parent _ := rfl
  call_child _ _ := rfl
  children_parent _ := rfl
  reset_frame _ _ _ := ⟨_, rfl⟩
  reset_unfinished _ _ _ := by
    simp [resetUpdateReadEntryMaxCommitTs, resetResult, setHandlerResult, leafIsFinished]
  index_reset _ _ _ := rfl
  entry_reset _ _ _ _ := update_entry _ _ _ _
  request_reset e i j := by
    simp [handlerCall, resetUpdateReadEntryMaxCommitTs, resetResult, setHandlerResult, push,
      setMoveToNext, setFlags]

def commitFamily : Family K V S where
  parent := .postProcessingAfterCommit
  child := .postProcessingCommitEntryAfterCommit
  reset := resetPostProcessingCommitEntry
  index := OperationArgs.commitIndex
  entry := OperationArgs.commitEntry
  request x j := (x.keyWriteSet.key j).map fun k =>
    .commitVersion k (x.keyWriteSet.entry j).version x.txnId x.commitTimestamp
      VersionEntry.kMaxTimeStamp VersionEntry.kEmptyTxId (x.keyWriteSet.entry j).record
  child_injective _ _ := Op.postProcessingCommitEntryAfterCommit.inj
  child_ne_parent _ := by simp
  call_parent _ := rfl
  call_child _ _ := rfl
  children_parent _ := rfl
  reset_frame _ _ _ := ⟨_, rfl⟩
  reset_unfinished _ _ _ := by
    simp [resetPostProcessingCommitEntry, setHandlerResult, leafIsFinished]
  index_reset _ _ _ := rfl
  entry_reset _ _ _ _ := update_entry _ _ _ _
  request_reset e i j := by
    simp [handlerCall, resetPostProcessingCommitEntry, setHandlerResult, push, setMoveToNext,
      setFlags]

def deleteFamily : Family K V S where
  parent := .postProcessingAfterAbort
  child := .postProcessingDeleteEntryAfterAbort
  reset := resetPostProcessingDeleteEntry
  index := OperationArgs.deleteIndex
  entry := OperationArgs.deleteEntry
  request x j := (x.keyWriteSet.key j).map fun k =>
    .deleteVersion k (x.keyWriteSet.entry j).version
  child_injective _ _ := Op.postProcessingDeleteEntryAfterAbort.inj
  child_ne_parent _ := by simp
  call_parent _ := rfl
  call_child _ _ := rfl
  children_parent _ := rfl
  reset_frame _ _ _ := ⟨_, rfl⟩
  reset_unfinished _ _ _ := by
    simp [resetPostProcessingDeleteEntry, resetResult, setHandlerResult, leafIsFinished]
  index_reset _ _ _ := rfl
  entry_reset _ _ _ _ := update_entry _ _ _ _
  request_reset e i j := by
    simp [handlerCall, resetPostProcessingDeleteEntry, resetResult, setHandlerResult, push,
      setMoveToNext, setFlags]

def releaseFamily : Family K V S where
  parent := .releaseReadCounter
  child := .releaseReadCounterForEachEntry
  reset := resetReleaseReadCounterForEachEntry
  index := OperationArgs.releaseIndex
  entry := OperationArgs.releaseEntry
  request x j := (x.keyReadSet.key j).map fun k =>
    .releaseReadCounter k (x.keyReadSet.entry j).version
  child_injective _ _ := Op.releaseReadCounterForEachEntry.inj
  child_ne_parent _ := by simp
  call_parent _ := rfl
  call_child _ _ := rfl
  children_parent _ := rfl
  reset_frame _ _ _ := ⟨_, rfl⟩
  reset_unfinished _ _ _ := by
    simp [resetReleaseReadCounterForEachEntry, resetResult, setHandlerResult, leafIsFinished]
  index_reset _ _ _ := rfl
  entry_reset _ _ _ _ := update_entry _ _ _ _
  request_reset e i j := by
    simp [handlerCall, resetReleaseReadCounterForEachEntry, resetResult, setHandlerResult, push,
      setMoveToNext, setFlags]

structure Invoked (F : Family K V S) (l : List ℕ) (e e' : TransactionExecution K V S) : Prop where
  data : e'.toExecutionState = e.toExecutionState
  index : F.index e'.args = F.index e.args
  entry : ∀ i index, l[i]? = some index → F.entry e'.args i = index
  flags_child : ∀ i < l.length, (e'.flags (F.child i)).moveToNext = false
  flags_other : ∀ x, (∀ i < l.length, x ≠ F.child i) → e'.flags x = e.flags x
  unfinished : ∀ i < l.length, e'.leafIsFinished (F.child i) = false
  handlerResult : ∀ x, (∀ i < l.length, x ≠ F.child i) → e'.handlerResult x = e.handlerResult x
  pending : e'.pending = e.pending ++ calls F.child F.request e.toExecutionState l
  log : e'.log = e.log ++ issues (calls F.child F.request e.toExecutionState l)
  occupied : ∀ held, e.operationVector.Occupied held → (∀ i < l.length, ¬ held (F.child i)) →
    e'.operationVector.Occupied fun x => held x ∨ ∃ i < l.length, x = F.child i
  stack : e'.operationVector =
    e.operationVector ++ ((List.range l.length).map F.child).map some

namespace Invoked

variable {F : Family K V S} {l : List ℕ} {e e' : TransactionExecution K V S}

theorem nil : Invoked F [] e e where
  data := rfl
  index := rfl
  entry := by simp
  flags_child := by simp
  flags_other _ _ := rfl
  unfinished := by simp
  handlerResult _ _ := rfl
  pending := by simp [calls]
  log := by simp [calls, issues]
  occupied held h _ := h.congr (by simp)
  stack := by simp

theorem log_subset (h : Invoked F l e e') : e.log ⊆ e'.log := by
  rw [h.log]
  exact List.subset_append_left _ _

theorem concat (h : Invoked F l e e') (j : ℕ) :
    Invoked F (l ++ [j]) e ((F.reset e' l.length j).invoke (F.child l.length)) := by
  have hlt : ∀ i, i < (l ++ [j]).length ↔ i < l.length ∨ i = l.length := by simp; omega
  have hne : ∀ i < l.length, F.child i ≠ F.child l.length :=
    fun i hi he => absurd (F.child_injective _ _ he) (Nat.ne_of_lt hi)
  have hreq := F.request_reset e' l.length j
  have hidx := F.index_reset e' l.length j
  have hent := F.entry_reset e' l.length j
  have hunf := F.reset_unfinished e' l.length j
  obtain ⟨r, hr⟩ := F.reset_frame e' l.length j
  unfold invoke
  rw [F.call_child, issueCall_eq, hreq, h.data]
  rw [hr] at hunf ⊢
  generalize (F.reset e' l.length j).args = a at hidx hent hunf ⊢
  refine ⟨h.data, hidx.trans h.index, ?_, ?_, ?_, ?_, ?_, ?_, ?_, ?_, ?_⟩
  · intro i index hi
    change F.entry a i = index
    rw [hent]
    by_cases hin : i = l.length
    · subst hin
      simpa using hi
    · rw [if_neg hin]
      refine h.entry i index ?_
      rwa [List.getElem?_append_left] at hi
      have := (List.getElem?_eq_some_iff.mp hi).1
      simp at this
      omega
  · intro i hi
    simp only [setMoveToNext, setFlags, push]
    rcases (hlt i).mp hi with hi | rfl
    · rw [Function.update_of_ne (hne i hi)]
      exact h.flags_child i hi
    · rw [Function.update_self]
  · intro x hx
    simp only [setMoveToNext, setFlags, push]
    rw [Function.update_of_ne (hx l.length (by simp))]
    exact h.flags_other x fun i hi => hx i ((hlt i).mpr (.inl hi))
  · intro i hi
    rcases (hlt i).mp hi with hi | rfl
    · refine (leafIsFinished_congr ?_).trans (h.unfinished i hi)
      exact Function.update_of_ne (hne i hi) _ _
    · exact hunf
  · intro x hx
    refine (Function.update_of_ne (hx l.length (by simp)) _ _).trans ?_
    exact h.handlerResult x fun i hi => hx i ((hlt i).mpr (.inl hi))
  · simp only [setMoveToNext, setFlags, push]
    rw [h.pending, calls_concat, List.append_assoc]
  · simp only [setMoveToNext, setFlags, push]
    rw [h.log, calls_concat, issues, issues, issues, List.map_append, List.append_assoc]
  · intro held ho hn
    have hb := h.occupied held ho fun i hi => hn i ((hlt i).mpr (.inl hi))
    refine (hb.pushBack (x := F.child l.length) ?_).congr fun x => ?_
    · rintro (hc | ⟨i, hi, hc⟩)
      · exact hn l.length (by simp) hc
      · exact hne i hi hc.symm
    · constructor
      · rintro (rfl | hx | ⟨i, hi, rfl⟩)
        · exact .inr ⟨_, by simp, rfl⟩
        · exact .inl hx
        · exact .inr ⟨i, (hlt i).mpr (.inl hi), rfl⟩
      · rintro (hx | ⟨i, hi, rfl⟩)
        · exact .inr (.inl hx)
        · rcases (hlt i).mp hi with hi | rfl
          · exact .inr (.inr ⟨i, hi, rfl⟩)
          · exact .inl rfl
  · simp only [setMoveToNext, setFlags, push]
    rw [h.stack, Slots.pushBack, List.append_assoc, List.length_append, List.length_singleton,
      List.range_succ, List.map_append, List.map_append]
    rfl

end Invoked

theorem invokeAll_invoked (F : Family K V S) (l : List ℕ) (e : TransactionExecution K V S) :
    Invoked F l e (e.invokeAll F.reset F.child l) := by
  induction l using List.reverseRecOn with
  | nil => exact .nil
  | append_singleton l j ih =>
    have h := ih.concat j
    simpa [invokeAll, List.zipIdx_append] using h

theorem Alone.call_family {F : Family K V S} {e : TransactionExecution K V S}
    (h : Alone (some F.parent) e) :
    Invoked F (F.index e.args) (e.setMoveToNext F.parent false) (call F.parent e) ∧
      Stacked (some F.parent) (fun x => ∃ i < (F.index e.args).length, x = F.child i)
        (call F.parent e) := by
  have hi := invokeAll_invoked F (F.index e.args) (e.setMoveToNext F.parent false)
  rw [← F.call_parent] at hi
  refine ⟨hi, ?_, ?_, ?_, ?_, ?_, ?_⟩
  · rintro _ ⟨⟩ ⟨i, -, hx⟩
    exact F.child_ne_parent i hx.symm
  · have ho := hi.occupied _ h.occupied fun i _ hx => F.child_ne_parent i (Option.some.inj hx).symm
    refine ho.congr fun x => or_congr_right ⟨?_, And.left⟩
    rintro ⟨i, hi', rfl⟩
    exact ⟨⟨i, hi', rfl⟩, hi.flags_child i hi'⟩
  · intro p hp
    rw [hi.pending] at hp
    simp only [setMoveToNext, setFlags, h.pending, List.nil_append, mem_calls] at hp
    obtain ⟨i, index, hl, hpc, -⟩ := hp
    have hil := (List.getElem?_eq_some_iff.mp hl).1
    rw [hpc]
    exact ⟨⟨i, hil, rfl⟩, hi.unfinished i hil⟩
  · rw [hi.pending]
    simp only [setMoveToNext, setFlags, h.pending, List.nil_append]
    exact calls_nodup F.child_injective _ _
  · rintro _ ⟨i, hil, rfl⟩ hmv
    rw [hi.flags_child i hil] at hmv
    cases hmv
  · rintro _ ⟨i, hil, rfl⟩ hfx
    rw [hi.unfinished i hil] at hfx
    cases hfx

theorem Family.isFinished_parent (F : Family K V S) {e : TransactionExecution K V S} :
    e.isFinished F.parent = true ↔
      ∀ i < (F.index e.args).length, e.isCascadeFinished (F.child i) = true := by
  simp only [isFinished, F.children_parent, List.all_map, List.all_eq_true, List.mem_range,
    Function.comp_apply]

def callData (op : Op) (e : TransactionExecution K V S) : ExecutionState K V S :=
  match op with
  | .insert | .upsert => e.insertReadSet.toExecutionState
  | .setCommitTs => (e.resetTime.setCommitTs e.resetTime.proposedCommitTs).toExecutionState
  | .writeToLog => (e.setMoveToNext .writeToLog false).writeToLogCallImpl.toExecutionState
  | .update => (e.setMoveToNext .update false).updateCallImpl.toExecutionState
  | .delete => (e.setMoveToNext .delete false).deleteCallImpl.toExecutionState
  | _ => e.toExecutionState

theorem call_data (op : Op) (e : TransactionExecution K V S) :
    (call op e).toExecutionState = callData op e := by
  have hF : ∀ F : Family K V S, (call F.parent e).toExecutionState = e.toExecutionState := by
    intro F
    rw [F.call_parent, (invokeAll_invoked F _ _).data]
    rfl
  have hi : ∀ (z : TransactionExecution K V S) x, (z.issueCall x).toExecutionState =
      z.toExecutionState := fun z x => issueCall_data x z
  cases op with
  | upload => exact hF uploadFamily
  | validate => exact hF validateFamily
  | postProcessingAfterCommit => exact hF commitFamily
  | postProcessingAfterAbort => exact hF deleteFamily
  | releaseReadCounter => exact hF releaseFamily
  | insert | upsert => exact hi _ .readOutside
  | setCommitTs => exact hi _ .setCommitTs
  | update | delete | writeToLog => rfl
  | _ => exact hi _ _

end TransactionExecution

end Fugue
