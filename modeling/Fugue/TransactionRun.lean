import Fugue.RequestPhase

namespace Fugue

namespace TransactionExecution

variable {K V S : Type} [DecidableEq K] [Services S] {e e' : TransactionExecution K V S}

section

omit [DecidableEq K] [Services S]

structure Grows (e e' : TransactionExecution K V S) : Prop where
  log : ∃ l, e'.log = e.log ++ issues l
  stack : ∃ l, e'.operationVector = e.operationVector ++ l

namespace Grows

variable {e₁ e₂ : TransactionExecution K V S}

theorem of_eq (hl : e'.log = e.log) (hv : e'.operationVector = e.operationVector) : Grows e e' :=
  ⟨⟨[], by simp [hl, issues]⟩, ⟨[], by simp [hv]⟩⟩

theorem trans (h : Grows e e₁) (h' : Grows e₁ e₂) : Grows e e₂ := by
  obtain ⟨l, hl⟩ := h.log
  obtain ⟨l', hl'⟩ := h'.log
  obtain ⟨v, hv⟩ := h.stack
  obtain ⟨v', hv'⟩ := h'.stack
  exact ⟨⟨l ++ l', by simp [hl, hl', issues]⟩, ⟨v ++ v', by simp [hv, hv']⟩⟩

theorem issue (h : Grows e e₁) (op : Op) (c : HandlerCall K) : Grows e (e₁.issue op c) :=
  h.trans ⟨⟨[(op, c)], rfl⟩, ⟨[], (List.append_nil _).symm⟩⟩

theorem issueCall (h : Grows e e₁) (op : Op) : Grows e (e₁.issueCall op) := by
  unfold TransactionExecution.issueCall
  split
  · exact h.issue op _
  · exact h

theorem push (op : Op) : Grows e (e.push op) :=
  ⟨⟨[], by simp [TransactionExecution.push, issues]⟩, ⟨[some op], rfl⟩⟩

theorem length (h : Grows e e') : e.operationVector.length ≤ e'.operationVector.length := by
  obtain ⟨l, hl⟩ := h.stack
  rw [hl, List.length_append]
  exact Nat.le_add_right _ _

theorem slot (h : Grows e e') {i : ℕ} {x : Op} (hi : e.operationVector.slot i = some x) :
    e'.operationVector.slot i = some x := by
  obtain ⟨l, hl⟩ := h.stack
  rw [hl]
  exact Slots.slot_append hi l

end Grows

end

theorem callLeaf_grows (op : Op) (e : TransactionExecution K V S) : Grows e (callLeaf op e) := by
  have hm : Grows e (e.setMoveToNext op false) := .of_eq rfl rfl
  have hq : ∀ z : TransactionExecution K V S, Quiet (e.setMoveToNext op false) z → Grows e z :=
    fun z hz => by rw [hz]; exact .of_eq rfl rfl
  have hi : Grows e ((e.setMoveToNext op false).issueCall op) := hm.issueCall op
  cases op with
  | setCommitTs =>
    let z := (e.setMoveToNext .setCommitTs false).resetTime
    have hz : Grows e (z.setCommitTs z.proposedCommitTs) := .of_eq rfl rfl
    exact hz.issueCall .setCommitTs
  | writeToLog =>
    simp only [callLeaf, writeToLogCallImpl]
    split
    · exact .of_eq rfl rfl
    · let z := { e.setMoveToNext .writeToLog false with
        txnEntry := { e.txnEntry with commitTs := e.commitTimestamp } }
      have hz : Grows e z := .of_eq rfl rfl
      exact hz.issue .writeToLog (.asyncAppend e.keyWriteSet.popIndex z.txnEntry)
  | update =>
    refine hq _ ?_
    simp only [callLeaf, updateCallImpl]
    repeat' split
    all_goals rfl
  | delete =>
    refine hq _ ?_
    simp only [callLeaf, deleteCallImpl]
    repeat' split
    all_goals rfl
  | _ => exact hi

theorem invoke_grows (op : Op) (e : TransactionExecution K V S) : Grows e (e.invoke op) :=
  (Grows.push op).trans (callLeaf_grows op _)

theorem Family.call_grows (F : Family K V S) (e : TransactionExecution K V S) :
    Grows e (call F.parent e) := by
  rw [F.call_parent]
  have hr : ∀ z i j, Grows z (F.reset z i j) := by
    intro z i j
    obtain ⟨r, hr⟩ := F.reset_frame z i j
    rw [hr]
    exact .of_eq rfl rfl
  have hl : ∀ (l : List (ℕ × ℕ)) z,
      Grows z (l.foldl (fun e p => (F.reset e p.2 p.1).invoke (F.child p.2)) z) := by
    intro l
    induction l with
    | nil => exact fun z => .of_eq rfl rfl
    | cons p l ih => exact fun z => ((hr z p.2 p.1).trans (invoke_grows _ _)).trans (ih _)
  exact (show Grows e (e.setMoveToNext F.parent false) from .of_eq rfl rfl).trans (hl _ _)

theorem call_grows (op : Op) (e : TransactionExecution K V S) : Grows e (call op e) := by
  have hl : Grows e (callLeaf op e) := callLeaf_grows op e
  have hr : Grows e ((e.setMoveToNext op false).resetReadOutside e.args.writeKey |>.invoke
      .readOutside) :=
    (show Grows e ((e.setMoveToNext op false).resetReadOutside e.args.writeKey) from
      .of_eq rfl rfl).trans (invoke_grows .readOutside _)
  cases op with
  | upload => exact uploadFamily.call_grows e
  | validate => exact validateFamily.call_grows e
  | postProcessingAfterCommit => exact commitFamily.call_grows e
  | postProcessingAfterAbort => exact deleteFamily.call_grows e
  | releaseReadCounter => exact releaseFamily.call_grows e
  | insert | upsert => exact hr
  | _ => exact hl

theorem visit_grows {i : ℕ} {b : Bool} (h : visit i e = .ok (e', b)) :
    (∃ l, e'.log = e.log ++ issues l) ∧ e.operationVector.length ≤ e'.operationVector.length := by
  rcases visit_cases h with rfl | ⟨op, o, e₁, -, -, -, ha, ⟨rfl, rfl⟩ | ⟨y, rfl, rfl⟩⟩
  · exact ⟨⟨[], by simp [issues]⟩, le_rfl⟩
  · refine ⟨⟨[], by simp [setSlot, ha.log, issues]⟩, ?_⟩
    simp [setSlot, Slots.setSlot, ha.operationVector]
  · have hg := call_grows y (e₁.setSlot i (some y))
    obtain ⟨l, hl⟩ := hg.log
    have hlen : (e₁.setSlot i (some y)).operationVector.length = e.operationVector.length := by
      simp [setSlot, Slots.setSlot, ha.operationVector]
    exact ⟨⟨l, hl.trans (by rw [setSlot, ha.log])⟩, hlen ▸ hg.length⟩

theorem visitAll_run {n : ℕ} (h : visitAll n e = .ok e') :
    ∃ l : List ℕ, run step e (l.map .visit) = some e' ∧
      e.operationVector.length ≤ e'.operationVector.length := by
  induction n generalizing e with
  | zero =>
    cases h
    exact ⟨[], rfl, le_rfl⟩
  | succ n ih =>
    unfold visitAll at h
    split at h
    · cases h
    · next z hv =>
      cases h
      exact ⟨[n], by simp [run, step, hv, Except.map, Except.toOption], (visit_grows hv).2⟩
    · next z hv =>
      obtain ⟨l, hl, hlen⟩ := ih h
      refine ⟨n :: l, run_cons.mpr ⟨z, ?_, hl⟩, (visit_grows hv).2.trans hlen⟩
      simp [step, hv, Except.map, Except.toOption]

/-- `MoveForward` takes steps of the execution: iterations of its loop, and then its end. -/
theorem moveForward_run (h : e.moveForward = .ok e') :
    ∃ (l : List ℕ) (z : _), run step e (l.map .visit) = some z ∧
      e' = if z.operationVector = [] then z else z.tidy := by
  unfold moveForward at h
  split at h
  · next hv =>
    cases h
    exact ⟨[], e, rfl, by simp [hv]⟩
  · next hv =>
    cases hz : visitAll e.operationVector.length e with
    | error m => rw [hz] at h; cases h
    | ok z =>
      rw [hz] at h
      cases h
      obtain ⟨l, hl, hlen⟩ := visitAll_run hz
      have hne : z.operationVector ≠ [] := by
        rw [← List.length_pos_iff]
        exact (List.length_pos_iff.mpr hv).trans_le hlen
      exact ⟨l, z, hl, by rw [if_neg hne]⟩

theorem abort_log (e : TransactionExecution K V S) : ∃ l, e.abort.log = e.log ++ issues l :=
  ⟨[(.updateTxnStatusToAbort, .updateTxnStatus e.txnId .aborted)], rfl⟩

theorem dispatch_log (r : OperationRequest K) (e : TransactionExecution K V S) :
    ∃ l, (e.dispatch r).log = e.log ++ issues l := by
  have hs : ∀ op (z : TransactionExecution K V S), z.log = e.log →
      ∃ l, (start op z).log = e.log ++ issues l := by
    intro op z hz
    obtain ⟨l, hl⟩ := ((Grows.push op).trans (call_grows op (z.push op))).log
    exact ⟨l, hl.trans (by rw [hz])⟩
  cases r with
  | abort => exact abort_log { e with currentRequest := some .abort, requestFinished := false }
  | readDataStore key record needToRead =>
    simp only [dispatch]
    split
    · exact hs _ _ rfl
    · exact ⟨[], (List.append_nil _).symm⟩
  | _ =>
    simp only [dispatch]
    exact hs _ _ rfl

theorem step_log {a : Action K V} (h : step e a = some e') :
    ∃ new, e'.log = e.log ++ new ∧
      ∀ op c r, Event.answered op c r ∈ new → a = .complete op r := by
  have hi : (∃ l, e'.log = e.log ++ issues l) → ∃ new, e'.log = e.log ++ new ∧
      ∀ op c r, Event.answered op c r ∈ new → a = .complete op r := by
    rintro ⟨l, hl⟩
    refine ⟨_, hl, fun op c r hr => ?_⟩
    obtain ⟨p, -, hp⟩ := List.mem_map.mp hr
    cases hp
  cases a with
  | dispatch r =>
    simp only [step] at h
    split at h
    · cases h
      exact hi (dispatch_log r e)
    · cases h
  | complete op reply =>
    obtain ⟨c, hc⟩ := complete_cases h
    refine ⟨_, hc.log, fun op' c' r hr => ?_⟩
    cases List.mem_singleton.mp hr
    rfl
  | visit i =>
    simp only [step] at h
    cases hv : TransactionExecution.visit i e with
    | error m => rw [hv] at h; cases h
    | ok p =>
      rw [hv] at h
      cases h
      exact hi (visit_grows (b := p.2) hv).1
  | tidy =>
    simp only [step] at h
    split at h
    · cases h
    · cases h
      refine hi ?_
      unfold tidy
      split
      · exact abort_log { e with status := .aborted }
      · exact ⟨[], (List.append_nil _).symm⟩

theorem step_subset {a : Action K V} (h : step e a = some e') : e.log ⊆ e'.log := by
  obtain ⟨new, hnew, -⟩ := step_log h
  rw [hnew]
  exact List.subset_append_left _ _

namespace Serving

omit [DecidableEq K] [Services S] in
theorem fresh (hv : e.operationVector = []) (hp : e.pending = []) (hl : e.log = [])
    (hs : e.status = .ongoing) (hf : e.isTransactionFinished = false)
    (hr : e.keyReadSet.popIndex = 0) (hw : e.keyWriteSet.popIndex = 0) : Serving e := by
  have ho : Open 0 e := by
    refine ⟨hs, hf, by simp [hl], ?_, ?_, ?_, ?_⟩
    · intro x gaveUp pre op c post h
      simp [hl] at h
    · simp [hl, issuedCalls, answeredCalls, hp]
    · rw [hl]
      rfl
    · constructor <;> simp [hw]
  refine .idle 0 ho hr (Alone.unstacked ⟨?_, hp⟩)
  rw [hv]
  exact Slots.occupied_nil.congr fun x => by simp

omit [DecidableEq K] in
theorem reset (hv : e.operationVector = []) (hp : e.pending = []) : Serving e.reset :=
  fresh hv hp rfl rfl rfl rfl rfl

omit [DecidableEq K] [Services S] in
theorem rank_of_slot (h : Serving e) {i : ℕ} {op : Op}
    (hi : e.operationVector.slot i = some op) : op.rank = 0 := by
  cases h with
  | idle n h size stacked =>
    rcases stacked.occupied.held_of_slot hi with hp | ⟨hm, -⟩
    · cases hp
    · exact hm.elim
  | single n h size op' hop stacked =>
    rcases stacked.occupied.held_of_slot hi with hp | ⟨rfl, -⟩
    · cases hp
    · rcases hop with rfl | rfl <;> rfl
  | reading n h parent hp stacked =>
    rcases stacked.occupied.held_of_slot hi with hpar | ⟨rfl, -⟩
    · rcases hp with rfl | rfl | rfl <;> cases hpar <;> rfl
    · rfl
  | returned n h size op' hop stacked =>
    rcases stacked.occupied.held_of_slot hi with hpar | ⟨rfl, -⟩
    · obtain rfl := Option.some.inj hpar
      rcases hop with rfl | rfl <;> rfl
    · rfl
  | instant n h size op' hop stacked =>
    rcases stacked.occupied.held_of_slot hi with hpar | ⟨hm, -⟩
    · obtain rfl := Option.some.inj hpar
      rcases hop with rfl | rfl <;> rfl
    · exact hm.elim

theorem step {a : Action K V} (h : Serving e) (ha : ∀ r, a ≠ .dispatch r)
    (hs : step e a = some e') : Serving e' := by
  cases a with
  | dispatch r => exact absurd rfl (ha r)
  | complete op reply =>
    obtain ⟨c, hc⟩ := complete_cases hs
    exact h.complete hc
  | visit i =>
    simp only [TransactionExecution.step] at hs
    cases hv : TransactionExecution.visit i e with
    | error m => rw [hv] at hs; cases hs
    | ok p =>
      rw [hv] at hs
      cases hs
      exact h.visit (b := p.2) hv
  | tidy =>
    simp only [TransactionExecution.step] at hs
    split at hs
    · cases hs
    · cases hs
      exact h.tidy

end Serving

/-- A transaction serves requests until `Commit` or `Abort` is requested with the sets `x`. -/
inductive Alive (e : TransactionExecution K V S) : Prop
  | serving (h : Serving e)
  | ending (x : ExecutionState K V S) (gaveUp : Prop) (s : Stage)
      (entries : Entries e.log x.keyReadSet.popIndex x) (h : Pipe x gaveUp s e)

namespace Alive

theorem reset (hv : e.operationVector = []) (hp : e.pending = []) : Alive e.reset :=
  .serving (.reset hv hp)

theorem dispatch {r : OperationRequest K} (h : Serving e) (hv : e.operationVector = []) :
    Alive (e.dispatch r) := by
  obtain ⟨hset, n, hi⟩ := h.settled hv
  obtain ⟨l, hl⟩ := dispatch_log r e
  have hent : Entries (e.dispatch r).log e.keyReadSet.popIndex e.toExecutionState := by
    rw [hl]
    exact (hi.size ▸ hi.opened.entries).mono (List.subset_append_left _ _)
  by_cases hc : r = .commit
  · subst hc
    exact .ending _ False .upload hent hset.dispatch_commit
  · by_cases ha : r = .abort
    · subst ha
      exact .ending _ True .abort hent hset.dispatch_abort
    · exact .serving (.dispatch hi hc ha)

theorem step {a : Action K V} (h : Alive e) (hs : step e a = some e') : Alive e' := by
  cases h with
  | ending x gaveUp s entries h =>
    obtain ⟨s', hs'⟩ := h.step hs
    exact .ending x gaveUp s' (entries.mono (step_subset hs)) hs'
  | serving h =>
    cases a with
    | dispatch r =>
      simp only [TransactionExecution.step] at hs
      split at hs
      · next hd =>
        cases hs
        exact dispatch h hd.1
      · cases hs
    | complete op reply => exact .serving (h.step (fun r => by simp) hs)
    | visit i => exact .serving (h.step (fun r => by simp) hs)
    | tidy => exact .serving (h.step (fun r => by simp) hs)

theorem run {as : List (Action K V)} (h : Alive e)
    (hr : run TransactionExecution.step e as = some e') : Alive e' :=
  run_invariant (fun _ _ _ hi hs => hi.step hs) h hr

theorem settled (h : Alive e) (hv : e.operationVector = [])
    (hf : e.isTransactionFinished = false) : Settled e := by
  cases h with
  | serving h => exact (h.settled hv).1
  | ending x gaveUp s entries h => exact absurd (hf.symm.trans (h.not_dispatch hv)) (by simp)

theorem failing (h : Alive e) (hs : e.status = .aborting) :
    ∃ x gaveUp, Pipe x gaveUp .failing e := by
  cases h with
  | serving h =>
    rw [h.status] at hs
    cases hs
  | ending x gaveUp s entries h =>
    have hf : s = .failing := by
      by_contra hf
      exact h.status_ne_aborting hf hs
    exact ⟨x, gaveUp, hf ▸ h⟩

theorem slot_of_aborting (h : Alive e) (hs : e.status = .aborting) (i : ℕ) :
    e.operationVector.slot i = none := by
  obtain ⟨x, gaveUp, hp⟩ := h.failing hs
  cases hi : e.operationVector.slot i with
  | none => rfl
  | some op =>
    rcases hp.stacked.occupied.held_of_slot hi with hpar | ⟨hm, -⟩
    · cases hpar
    · exact hm.elim

theorem handled (h : Alive e) : (issuedCalls e.log).Perm (answeredCalls e.log ++ e.pending) := by
  cases h with
  | serving h =>
    obtain ⟨n, ho⟩ := h.opened
    exact ho.handled
  | ending x gaveUp s entries h => exact h.core.handled

theorem pending_nodup (h : Alive e) : (e.pending.map Prod.fst).Nodup := by
  cases h with
  | ending x gaveUp s entries h => exact h.stacked.pending_nodup
  | serving h =>
    cases h with
    | idle n h size stacked => exact stacked.pending_nodup
    | single n h size op hop stacked moved => exact stacked.pending_nodup
    | reading n h parent hp stacked read => exact stacked.pending_nodup
    | returned n h size op hop stacked moved => exact stacked.pending_nodup
    | instant n h size op hop stacked => exact stacked.pending_nodup

end Alive

end TransactionExecution

end Fugue
