import Fugue.OperationFlight
import Fugue.RequestProgress

/-! No operation waits for a call that was never made: what is on the stack is finished, or waits for
a call that is pending, or for other operations on the stack. -/

namespace Fugue

namespace TransactionExecution

open ExecutionState

variable {K V S : Type} [DecidableEq K] [Services S] {e e' z : TransactionExecution K V S}
  {op y : Op} {o : Option Op}

structure CallFrame (op : Op) (e z : TransactionExecution K V S) : Prop where
  status : z.status = e.status
  pending : ∃ l, z.pending = e.pending ++ l
  handlerResult : ∀ x, x ≠ op → x ∉ (e.children op).getD [] →
    z.handlerResult x = e.handlerResult x

omit [DecidableEq K] [Services S] in
theorem CallFrame.issueCall {w : TransactionExecution K V S} (h : CallFrame op e w) (x : Op) :
    CallFrame op e (w.issueCall x) := by
  obtain ⟨l, hl⟩ := h.pending
  rw [issueCall_eq]
  exact ⟨h.status, ⟨_, (congrArg (· ++ _) hl).trans (List.append_assoc _ _ _)⟩, h.handlerResult⟩

theorem callLeaf_callFrame (op : Op) (e : TransactionExecution K V S) :
    CallFrame op e (callLeaf op e) := by
  have hdata : ∀ w : TransactionExecution K V S, w.status = e.status → w.pending = e.pending →
      w.handlerResult = e.handlerResult → CallFrame op e w := by
    intro w hs hp hr
    exact ⟨hs, ⟨[], hp.trans (List.append_nil _).symm⟩, fun x _ _ => congrFun hr x⟩
  have hissue : CallFrame op e ((e.setMoveToNext op false).issueCall op) :=
    (hdata (e.setMoveToNext op false) rfl rfl rfl).issueCall op
  cases op with
  | setCommitTs =>
    let w := (e.setMoveToNext .setCommitTs false).resetTime
    exact (hdata (w.setCommitTs w.proposedCommitTs) rfl rfl rfl).issueCall .setCommitTs
  | writeToLog =>
    have hlog : callLeaf .writeToLog e = (e.setMoveToNext .writeToLog false).setHandlerResult
        .writeToLog { e.handlerResult .writeToLog with isFinished := true } := by
      simp only [callLeaf, writeToLogCallImpl, enableLog, Bool.not_false, Bool.or_true, if_true]
      rfl
    rw [hlog]
    refine ⟨rfl, ⟨[], (List.append_nil _).symm⟩, fun x hx _ => ?_⟩
    exact Function.update_of_ne hx _ _
  | update =>
    simp only [callLeaf, updateCallImpl]
    split
    · split
      · exact hdata _ rfl rfl rfl
      · exact hdata _ rfl rfl rfl
    · exact hdata _ rfl rfl rfl
  | delete =>
    simp only [callLeaf, deleteCallImpl]
    split
    · split
      · exact hdata _ rfl rfl rfl
      · exact hdata _ rfl rfl rfl
    · split
      · exact hdata _ rfl rfl rfl
      · exact hdata _ rfl rfl rfl
    · exact hdata _ rfl rfl rfl
  | _ => exact hissue

theorem call_callFrame (op : Op) (e : TransactionExecution K V S) : CallFrame op e (call op e) := by
  have hF : ∀ F : Family K V S, CallFrame F.parent e (call F.parent e) := by
    intro F
    have hi := invokeAll_invoked F (F.index e.args) (e.setMoveToNext F.parent false)
    rw [F.call_parent]
    refine ⟨congrArg ExecutionState.status hi.data, ⟨_, hi.pending⟩, fun x _ hx => ?_⟩
    apply hi.handlerResult
    rintro i hlt rfl
    apply hx
    rw [F.children_parent]
    exact List.mem_map.mpr ⟨i, List.mem_range.mpr hlt, rfl⟩
  have hread : ∀ w, w = .insert ∨ w = .upsert → CallFrame w e
      ((e.setMoveToNext w false).resetReadOutside e.args.writeKey |>.invoke .readOutside) := by
    intro w hw
    have hreset : CallFrame w e
        (((e.setMoveToNext w false).resetReadOutside e.args.writeKey).push .readOutside
          |>.setMoveToNext .readOutside false) := by
      refine ⟨rfl, ⟨[], (List.append_nil _).symm⟩, fun x _ hx => ?_⟩
      have hne : x ≠ .readOutside := by
        rintro rfl
        rcases hw with rfl | rfl <;> exact hx List.mem_cons_self
      exact Function.update_of_ne hne _ _
    exact hreset.issueCall .readOutside
  cases op with
  | upload => exact hF uploadFamily
  | validate => exact hF validateFamily
  | postProcessingAfterCommit => exact hF commitFamily
  | postProcessingAfterAbort => exact hF deleteFamily
  | releaseReadCounter => exact hF releaseFamily
  | insert => exact hread _ (.inl rfl)
  | upsert => exact hread _ (.inr rfl)
  | _ => exact callLeaf_callFrame _ e

def Startable (e : TransactionExecution K V S) : Op → Prop
  | .upload => e.args.uploadSize ≤ e.keyWriteSet.popIndex
  | .validate => ∀ i ∈ e.args.validateIndex, i < e.keyReadSet.popIndex
  | .postProcessingAfterCommit => ∀ i ∈ e.args.commitIndex, i < e.keyWriteSet.popIndex
  | .postProcessingAfterAbort => ∀ i ∈ e.args.deleteIndex, i < e.keyWriteSet.popIndex
  | .releaseReadCounter => ∀ i ∈ e.args.releaseIndex, i < e.keyReadSet.popIndex
  | .uploadVersionEntry _ | .updateReadEntryMaxCommitTs _
  | .postProcessingCommitEntryAfterCommit _ | .postProcessingDeleteEntryAfterAbort _
  | .releaseReadCounterForEachEntry _ => False
  | _ => True

theorem next_startable (h : next op e = .ok (some y, z)) : Startable z y := by
  unfold TransactionExecution.next at h
  cases op <;> simp only [nextImpl, uploadVersionEntryNext, updateReadEntryMaxCommitTsNext,
    pushConflictNext, deleteEntryNext, readDataStoreNext, insertNext, upsertNext] at h
  case readOutside =>
    split at h
    · cases h
    · cases hr : (e.setFlags .readOutside ⟨true, true⟩).internalRead <;> rw [hr] at h <;> cases h
  all_goals repeat' split at h
  all_goals cases h
  all_goals try trivial
  · intro i hi
    exact List.mem_range.mp (List.mem_filter.mp hi).1
  · intro i hi
    exact (mem_postProcessIndex.mp hi).1
  · intro i hi
    exact List.mem_range.mp (List.mem_filter.mp hi).1
  · intro i hi
    exact (mem_postProcessIndex.mp hi).1

/-- No operation that is called waits for a call that it does not make. -/
def Awaits (e : TransactionExecution K V S) (op : Op) : Prop :=
  e.leafIsFinished op = true ∨ ∃ c, (op, c) ∈ e.pending

theorem call_awaits (hs : Startable z y) (hk : 0 < y.rank → Keyed (call y z).toExecutionState)
    (hop : op = y ∧ z.children y = none ∨ op ∈ (z.children y).getD []) :
    Awaits (call y z) op := by
  have hF : ∀ F : Family K V S, (∀ j ∈ F.index z.args,
      (F.request z.toExecutionState j).isSome = true) → y = F.parent →
      Awaits (call y z) op := by
    rintro F hreq rfl
    rw [F.children_parent] at hop
    right
    apply F.waiting z hreq
    obtain ⟨i, hi, rfl⟩ := List.mem_map.mp (hop.resolve_left fun h => by cases h.2)
    refine ⟨i, ?_, rfl⟩
    have hinv := invokeAll_invoked F (F.index z.args) (z.setMoveToNext F.parent false)
    rw [F.call_parent, hinv.index]
    exact List.mem_range.mp hi
  have hcalls : ∀ (w : TransactionExecution K V S) x c, w.handlerCall x = some c →
      call y z = w.issueCall x → op = x → Awaits (call y z) op := by
    rintro w x c hc heq rfl
    right
    rw [heq, issueCall_eq, hc]
    exact ⟨c, List.mem_append_right _ (List.mem_singleton.mpr rfl)⟩
  have hread : ∀ i < z.keyReadSet.popIndex, 0 < y.rank → callData y z = z.toExecutionState →
      ∃ k, z.keyReadSet.key i = some k := by
    intro i hi hy hdata
    have := (hk hy).read i
    rw [call_data, hdata] at this
    exact this hi
  have hwrite : ∀ i < z.keyWriteSet.popIndex, 0 < y.rank → callData y z = z.toExecutionState →
      ∃ k, z.keyWriteSet.key i = some k := by
    intro i hi hy hdata
    have := (hk hy).write i
    rw [call_data, hdata] at this
    exact this hi
  cases y with
  | upload =>
    apply hF uploadFamily _ rfl
    intro j hj
    have hj : j < z.args.uploadSize := List.mem_range.mp hj
    obtain ⟨k, hk⟩ := hwrite j (hj.trans_le hs) Nat.one_pos rfl
    simp [uploadFamily, hk]
  | validate =>
    apply hF validateFamily _ rfl
    intro j hj
    obtain ⟨k, hk⟩ := hread j (hs j hj) (Nat.succ_pos 2) rfl
    simp [validateFamily, hk]
  | postProcessingAfterCommit =>
    apply hF commitFamily _ rfl
    intro j hj
    obtain ⟨k, hk⟩ := hwrite j (hs j hj) (Nat.succ_pos 5) rfl
    simp [commitFamily, hk]
  | postProcessingAfterAbort =>
    apply hF deleteFamily _ rfl
    intro j hj
    obtain ⟨k, hk⟩ := hwrite j (hs j hj) (Nat.succ_pos 7) rfl
    simp [deleteFamily, hk]
  | releaseReadCounter =>
    apply hF releaseFamily _ rfl
    intro j hj
    obtain ⟨k, hk⟩ := hread j (hs j hj) (Nat.succ_pos 8) rfl
    simp [releaseFamily, hk]
  | insert | upsert =>
    have hop : op = .readOutside := by simpa [children] using hop
    exact hcalls _ .readOutside _ rfl rfl hop
  | uploadVersionEntry i | updateReadEntryMaxCommitTs i | postProcessingCommitEntryAfterCommit i
  | postProcessingDeleteEntryAfterAbort i | releaseReadCounterForEachEntry i => exact hs.elim
  | update | delete =>
    obtain rfl := (hop.resolve_right List.not_mem_nil).1
    exact .inl rfl
  | writeToLog =>
    obtain rfl := (hop.resolve_right List.not_mem_nil).1
    left
    simp [call, callLeaf, writeToLogCallImpl, enableLog, setHandlerResult, leafIsFinished]
  | readOutside | setCommitTs | pushConflictTxnCommitTsLowerBound | updateTxnStatusToCommit
  | updateTxnStatusToAbort | initTxn | readDataStore =>
    exact hcalls _ _ _ rfl rfl (hop.resolve_right List.not_mem_nil).1

omit [DecidableEq K] [Services S] in
theorem children_none (h : e.children op = none) : e'.children op = none := by
  cases op <;> first | rfl | cases h

/-- Each operation on the stack awaits an answer to its call, or other operations. -/
def Awaited (e : TransactionExecution K V S) : Prop :=
  ∀ i op, e.operationVector.slot i = some op → e.children op = none → Awaits e op

omit [DecidableEq K] [Services S] in
theorem Awaits.congr (h : Awaits e op) (hr : e'.handlerResult op = e.handlerResult op)
    (hp : ∃ l, e'.pending = e.pending ++ l) : Awaits e' op := by
  obtain ⟨l, hl⟩ := hp
  rw [Awaits, leafIsFinished_congr hr, hl]
  apply h.imp_right
  rintro ⟨c, hc⟩
  exact ⟨c, List.mem_append_left l hc⟩

namespace Awaited

omit [DecidableEq K] [Services S] in
theorem of_nil (h : e.operationVector = []) : Awaited e := by
  intro i op hi
  rw [h, Slots.slot_nil] at hi
  cases hi

omit [DecidableEq K] [Services S] in
theorem congr (h : Awaited e) (hv : ∀ i, e'.operationVector.slot i = e.operationVector.slot i)
    (hr : e'.handlerResult = e.handlerResult) (hp : e'.pending = e.pending) : Awaited e' := by
  intro i op hi hc
  rw [hv] at hi
  apply (h i op hi (children_none hc)).congr
  · rw [hr]
  · exact ⟨[], hp.trans (List.append_nil _).symm⟩

omit [Services S] in
theorem complete {c : HandlerCall K} {r : Reply V y} (h : Awaited e) (hc : Completed y c r e e') :
    Awaited e' := by
  intro i op hi hn
  rw [hc.operationVector] at hi
  by_cases hop : op = y
  · subst hop
    exact .inl (leafIsFinished_of_result hc.self)
  · rcases h i op hi (children_none hn) with hf | ⟨d, hd⟩
    · left
      rwa [leafIsFinished_congr (hc.other op hop)]
    · right
      refine ⟨d, ?_⟩
      rw [hc.pending]
      apply (List.mem_erase_of_ne _).mpr hd
      intro heq
      exact hop (Prod.mk.inj heq).1

omit [DecidableEq K] [Services S] in
theorem leave {i : ℕ} (h : Awaited e) (hi : e.operationVector.slot i = some y)
    (ha : Advanced y e none z) : Awaited (z.setSlot i none) := by
  intro j op hj hn
  have hj : (z.operationVector.setSlot i none).slot j = some op := hj
  rw [ha.operationVector, Slots.slot_setSlot _ _ _ _ (Slots.lt_length_of_slot hi)] at hj
  split at hj
  · cases hj
  · apply (h j op hj (children_none hn)).congr
    · exact ha.handlerResult op (by simp)
    · exact ⟨[], ha.pending.trans (List.append_nil _).symm⟩

theorem called (hs : Startable z y) (hk : 0 < y.rank → Keyed (call y z).toExecutionState)
    (h : ∀ i op, z.operationVector.slot i = some op → op ≠ y → z.children op = none → Awaits z op) :
    Awaited (call y z) := by
  intro i op hi hn
  by_cases hop : op = y ∧ z.children y = none ∨ op ∈ (z.children y).getD []
  · exact call_awaits hs hk hop
  · rw [call_stack] at hi
    have hold : z.operationVector.slot i = some op := by
      by_cases hlt : i < z.operationVector.length
      · rwa [Slots.slot, List.getElem?_append_left hlt] at hi
      · rw [Slots.slot, List.getElem?_append_right (Nat.le_of_not_lt hlt)] at hi
        have hmem := List.mem_of_getElem? (Option.join_eq_some_iff.mp hi)
        obtain ⟨x, hx, hxo⟩ := List.mem_map.mp hmem
        obtain rfl := Option.some.inj hxo
        exact absurd (.inr hx) hop
    have hne : op ≠ y := by
      rintro rfl
      exact hop (.inl ⟨rfl, children_none hn⟩)
    have hframe := call_callFrame y z
    apply (h i op hold hne (children_none hn)).congr
    · exact hframe.handlerResult op hne fun hm => hop (.inr hm)
    · exact hframe.pending

end Awaited

theorem Alive.keyed {i : ℕ} (h : Alive e) (hi : e.operationVector.slot i = some op)
    (hop : 0 < op.rank) : Keyed e.toExecutionState := by
  cases h with
  | serving h => exact absurd (h.rank_of_slot hi) (Nat.ne_of_gt hop)
  | ending x gaveUp s entries h =>
    have hx : Keyed x := ⟨fun j hj => ?_, fun j hj => ?_⟩
    · have hsets := h.core.sets
      constructor
      · intro j hj
        obtain ⟨k, hk⟩ := hx.write j (hsets.writeSize ▸ hj)
        exact ⟨k, (hsets.writeKey j).trans hk⟩
      · intro j hj
        obtain ⟨k, hk⟩ := hx.read j (hsets.readSize ▸ hj)
        exact ⟨k, (hsets.readKey j).trans hk⟩
    · obtain ⟨k, l, hk, -⟩ := entries.write j hj
      exact ⟨k, hk⟩
    · obtain ⟨k, t, r, hk, -⟩ := entries.read j hj
      exact ⟨k, hk⟩

namespace Awaited

theorem visit {i : ℕ} {b : Bool} (h : Awaited e) (hal : Alive e')
    (hv : TransactionExecution.visit i e = .ok (e', b)) : Awaited e' := by
  rcases visit_cases hv with rfl | ⟨x, o, e₁, hi, -, hn, ha, ⟨rfl, rfl⟩ | ⟨y, rfl, rfl⟩⟩
  · exact h
  · exact h.leave hi ha
  · have hlt := Slots.lt_length_of_slot hi
    have hslot : ∀ j, (e₁.setSlot i (some y)).operationVector.slot j =
        if j = i then some y else e.operationVector.slot j := by
      intro j
      change (e₁.operationVector.setSlot i (some y)).slot j = _
      rw [ha.operationVector, Slots.slot_setSlot _ _ _ _ hlt]
    have hself : (e₁.setSlot i (some y)).operationVector.slot i = some y := by
      rw [hslot, if_pos rfl]
    apply called
    · have hs := next_startable hn
      cases y <;> exact hs
    · exact hal.keyed (calls_slot y _ hself)
    · intro j op hj hop hnone
      rw [hslot] at hj
      split at hj
      · exact absurd (Option.some.inj hj).symm hop
      · apply (h j op hj (children_none hnone)).congr
        · exact ha.handlerResult op fun heq => hop (Option.some.inj heq).symm
        · exact ⟨[], ha.pending.trans (List.append_nil _).symm⟩

theorem start {op : Op} (hv : e.operationVector = []) (hs : Startable e op)
    (hk : 0 < op.rank → Keyed (start op e).toExecutionState) : Awaited (start op e) := by
  apply called
  · cases op <;> exact hs
  · exact hk
  · intro i x hi hx
    change (e.operationVector.pushBack op).slot i = some x at hi
    rw [hv, Slots.slot_pushBack] at hi
    split at hi
    · exact absurd (Option.some.inj hi).symm hx
    · simp at hi

theorem abort (e : TransactionExecution K V S) : Awaited e.abort := by
  intro i op hi _
  have hv : e.abort.operationVector = Slots.pushBack [] .updateTxnStatusToAbort := rfl
  rw [hv, Slots.slot_pushBack] at hi
  split at hi
  · obtain rfl := Option.some.inj hi
    exact .inr ⟨_, List.mem_append_right _ (List.mem_singleton.mpr rfl)⟩
  · simp at hi

theorem tidied (h : Awaited e) : Awaited e.tidied := by
  unfold TransactionExecution.tidied tidy
  split
  · exact h
  · split
    · exact abort _
    · exact h.congr (Slots.slot_trim _) rfl rfl

theorem dispatch {r : OperationRequest K} (hv : e.operationVector = [])
    (hal : Alive (e.dispatch r)) : Awaited (e.dispatch r) := by
  cases r with
  | abort => exact abort { e with currentRequest := some .abort, requestFinished := false }
  | readDataStore key record needToRead =>
    cases needToRead with
    | true =>
      simp only [TransactionExecution.dispatch, if_true]
      apply start
      · exact hv
      · trivial
      · exact fun h => absurd h (Nat.lt_irrefl 0)
    | false => exact of_nil hv
  | commit =>
    apply start
    · exact hv
    · exact Nat.le_refl _
    · intro hr
      apply hal.keyed (i := 0) _ hr
      apply calls_slot
      change (e.operationVector.pushBack Op.upload).slot 0 = _
      rw [hv]
      rfl
  | _ =>
    apply start
    · exact hv
    · trivial
    · exact fun h => absurd h (Nat.lt_irrefl 0)

end Awaited

section

variable {x : ExecutionState K V S} {gaveUp : Prop} {s : Stage} {p : Op}

theorem Pipe.parent_finished (h : Pipe x gaveUp s e) (hpar : s.parent = some p)
    (hlog : e.leafIsFinished .writeToLog = true ∨ s ≠ .log)
    (hmoved : ∀ z, s.member e z → (e.flags z).moveToNext = true) : e.isFinished p = true := by
  have hfin : ∀ z, s.member e z → e.leafIsFinished z = true :=
    fun z hz => h.stacked.moved_finished z hz (hmoved z hz)
  have hF : ∀ F : Family K V S, F.parent = p → (∀ z, F.member e z → s.member e z) →
      (∀ i, e.isCascadeFinished (F.child i) =
        (e.leafIsFinished (F.child i) && (e.flags (F.child i)).moveToNext)) →
      e.isFinished p = true := by
    rintro F rfl hm hcas
    apply F.isFinished_parent.mpr
    intro i hi
    have hz := hm (F.child i) ⟨i, hi, rfl⟩
    rw [hcas, hfin _ hz, hmoved _ hz]
    rfl
  cases s with
  | upload => exact hF uploadFamily (Option.some.inj hpar) (fun _ => id) fun _ => rfl
  | commit => exact hF commitFamily (Option.some.inj hpar) (fun _ => id) fun _ => rfl
  | delete => exact hF deleteFamily (Option.some.inj hpar) (fun _ => id) fun _ => rfl
  | release => exact hF releaseFamily (Option.some.inj hpar) (fun _ => id) fun _ => rfl
  | log =>
    obtain rfl := Option.some.inj hpar
    exact hlog.resolve_right fun hn => hn rfl
  | validate =>
    obtain rfl := Option.some.inj hpar
    apply validateFamily.isFinished_parent.mpr
    intro i hi
    have hm : Stage.validate.member e (.updateReadEntryMaxCommitTs i) := .inl ⟨i, hi, rfl⟩
    change e.isCascadeFinished (.updateReadEntryMaxCommitTs i) = true
    rw [isCascadeFinished, hfin _ hm, hmoved _ hm, Bool.true_and, Bool.true_and]
    cases hnext : (e.flags (.updateReadEntryMaxCommitTs i)).hasNext with
    | false => rfl
    | true =>
      -- a push took its place
      have hpush : Stage.validate.member e (.pushConflictTxnCommitTsLowerBound i) :=
        .inr ⟨i, hi, rfl, OperationFlags.eq_mk (hmoved _ hm) hnext⟩
      rw [hfin _ hpush, hmoved _ hpush]
      rfl
  | timestamp | status | abort | committed | failing | aborted => cases hpar

theorem Stage.member_leaf {s : Stage} {z : Op} (h : s.member e z) : e.children z = none := by
  cases s with
  | upload | commit | delete | release =>
    obtain ⟨i, -, rfl⟩ := h
    rfl
  | validate => obtain ⟨i, -, rfl⟩ | ⟨i, -, rfl, -⟩ := h <;> rfl
  | timestamp | status | abort =>
    obtain rfl := h
    rfl
  | log | committed | failing | aborted => exact h.elim

omit [DecidableEq K] [Services S] in
theorem isFinished_leaf (h : e.children op = none) (ha : Awaits e op) (hp : e.pending = []) :
    e.isFinished op = true := by
  rw [isFinished, h]
  apply ha.resolve_right
  simp [hp]

/-- A transaction whose calls are all answered goes on. -/
theorem Alive.exists_finished {i : ℕ} (h : Alive e) (ha : Awaited e) (hp : e.pending = [])
    (hi : e.operationVector.slot i = some op) :
    ∃ j y, e.operationVector.slot j = some y ∧ e.isFinished y = true := by
  have hleaf : ∀ j y, e.operationVector.slot j = some y → e.children y = none →
      ∃ j y, e.operationVector.slot j = some y ∧ e.isFinished y = true :=
    fun j y hj hc => ⟨j, y, hj, isFinished_leaf hc (ha j y hj hc) hp⟩
  cases h with
  | serving h =>
    cases h with
    | idle n h size stacked =>
      rcases stacked.occupied.held_of_slot hi with hpar | ⟨hm, -⟩
      · cases hpar
      · exact hm.elim
    | single n h size y hy stacked moved =>
      obtain ⟨j, hj⟩ := (stacked.occupied.holds y).mpr (.inr ⟨rfl, moved⟩)
      apply hleaf j y hj
      rcases hy with rfl | rfl <;> rfl
    | reading n h parent hpar stacked read =>
      obtain ⟨j, hj⟩ := (stacked.occupied.holds .readOutside).mpr (.inr ⟨rfl, read.moved⟩)
      exact hleaf j _ hj rfl
    | returned n h size y hy stacked moved =>
      obtain ⟨j, hj⟩ := (stacked.occupied.holds y).mpr (.inl rfl)
      refine ⟨j, y, hj, ?_⟩
      have hf := stacked.moved_finished _ rfl moved
      rcases hy with rfl | rfl <;> simp [isFinished, children, isCascadeFinished, hf, moved]
    | instant n h size y hy stacked =>
      obtain ⟨j, hj⟩ := (stacked.occupied.holds y).mpr (.inl rfl)
      apply hleaf j y hj
      rcases hy with rfl | rfl <;> rfl
  | ending x gaveUp s entries h =>
    by_cases hmoved : ∀ z, s.member e z → (e.flags z).moveToNext = true
    · have hpar := (h.stacked.occupied.held_of_slot hi).resolve_right fun hm => by
        simp [hmoved op hm.1] at hm
      refine ⟨i, op, hi, h.parent_finished hpar ?_ hmoved⟩
      by_cases hs : s = .log
      · subst hs
        obtain rfl := Option.some.inj hpar
        exact .inl (isFinished_leaf rfl (ha i _ hi rfl) hp)
      · exact .inr hs
    · obtain ⟨z, hmv⟩ := not_forall.mp hmoved
      obtain ⟨hz, hmv⟩ := Classical.not_imp.mp hmv
      obtain ⟨j, hj⟩ := (h.stacked.occupied.holds z).mpr (.inr ⟨hz, by simpa using hmv⟩)
      exact hleaf j z hj (Stage.member_leaf hz)

end

theorem Alive.pending_issued {l : List (Op × HandlerCall K)} (h : Alive e) (h' : Alive e')
    (hl : e'.log = e.log ++ issues l) : e'.pending.Perm (e.pending ++ l) := by
  have hh := h'.handled
  rw [hl, issuedCalls_append, answeredCalls_append, issuedCalls_issues, answeredCalls_issues,
    List.append_nil] at hh
  have hold := (h.handled.append_right l).symm.trans hh
  rw [List.append_assoc] at hold
  exact ((List.perm_append_left_iff _).mp hold).symm

omit [DecidableEq K] [Services S] in
theorem issuedCalls_drop {l : List (Op × HandlerCall K)} (hl : e'.log = e.log ++ issues l) :
    issuedCalls (e'.log.drop e.log.length) = l := by
  rw [hl, List.drop_left, issuedCalls_issues]

end TransactionExecution

end Fugue
